import Mathlib.Data.List.Nodup
import Mathlib.Tactic.Common
import ProbCore.Proofs.KeptTables

/-! A cache answers every sequence of requests as its history tells: it holds the keys that were used last, as many
as its bound allows, each with the value that was last put there. A use is a put, or a get of a key that is held; a
look is none. The history knows nothing of entries or of dropping one. -/

namespace ProbCore.Cache

/-- What a cache can be asked. -/
inductive Request (β : Type) where
  | put (key : String) (value : β)
  | get (key : String)
  | peek (key : String)
  | contains (key : String)
  | size
  | keys
  | clear

inductive Answer (β : Type) where
  | done
  | value (v : β)
  | truth (b : Bool)
  | number (n : Nat)
  | keys (ks : List String)

variable {β : Type}

/-- The answer to a request, and the cache after it. A request that fails leaves it as it was. -/
def answer (c : Cache β) : Request β → Except Failure (Answer β) × Cache β
  | .put key value =>
    match c.put key value with
    | .ok (c', _) => (.ok .done, c')
    | .error e => (.error e, c)
  | .get key =>
    match c.get key with
    | .ok (v, c') => (.ok (.value v), c')
    | .error e => (.error e, c)
  | .peek key => ((c.peek key).map .value, c)
  | .contains key => (.ok (.truth (c.contains key)), c)
  | .size => (.ok (.number c.size), c)
  | .keys => (.ok (.keys c.keys), c)
  | .clear => (.ok .done, c.clear)

/-- The cache after some requests. -/
def after (c : Cache β) (requests : List (Request β)) : Cache β := requests.foldl (fun c r => (c.answer r).2) c

/-- Each key once, where it first comes. -/
def distinct : List String → List String
  | [] => []
  | key :: keys => key :: (distinct keys).filter (· != key)

/-- As many as a bound allows. -/
def limit (bound : Option Int) (keys : List String) : List String :=
  match bound with
  | none => keys
  | some n => keys.take n.toNat

/-! A history lists requests, the latest first. -/

/-- The keys used since all was cleared, the latest use first. -/
def uses (bound : Option Int) : List (Request β) → List String
  | [] => []
  | .put key _ :: past => key :: uses bound past
  | .get key :: past =>
    if key ∈ limit bound (distinct (uses bound past)) then key :: uses bound past else uses bound past
  | .clear :: _ => []
  | _ :: past => uses bound past

/-- The keys used last, the latest first. -/
def recent (bound : Option Int) (past : List (Request β)) : List String := limit bound (distinct (uses bound past))

/-- The value that was last put under a key since all was cleared. -/
def latest (key : String) : List (Request β) → Option β
  | [] => none
  | .put other value :: past => if other = key then some value else latest key past
  | .clear :: _ => none
  | _ :: past => latest key past

/-- The value that was last put under a key, if the key is recent. -/
def recalled (bound : Option Int) (past : List (Request β)) (key : String) : Except Failure β :=
  match latest key past with
  | some v => if key ∈ recent bound past then .ok v else .error .unknownName
  | none => .error .unknownName

/-- The answer that a history calls for. -/
def expected (bound : Option Int) (past : List (Request β)) : Request β → Except Failure (Answer β)
  | .put .. | .clear => .ok .done
  | .get key | .peek key => (recalled bound past key).map .value
  | .contains key => .ok (.truth (key ∈ recent bound past))
  | .size => .ok (.number (recent bound past).length)
  | .keys => .ok (.keys (recent bound past).reverse)

theorem nodup_distinct (keys : List String) : (distinct keys).Nodup := by
  induction keys with
  | nil => exact .nil
  | cons key keys ih =>
    refine List.nodup_cons.mpr ⟨fun member => ?_, ih.filter _⟩
    exact bne_iff_ne.mp (List.mem_filter.mp member).2 rfl

theorem filter_ne_of_absent {key : String} {keys : List String} (absent : key ∉ keys) :
    keys.filter (· != key) = keys :=
  List.filter_eq_self.mpr fun _ member => bne_iff_ne.mpr fun same => absent (same ▸ member)

theorem take_filter_ne {key : String} {keys : List String} {n : Nat} (once : keys.Nodup)
    (held : key ∈ keys.take (n + 1)) : (keys.filter (· != key)).take n = (keys.take (n + 1)).filter (· != key) := by
  induction keys generalizing n with
  | nil => cases held
  | cons first keys ih =>
    obtain ⟨absent, once⟩ := List.nodup_cons.mp once
    rw [List.take_succ_cons] at held ⊢
    by_cases same : first = key
    · subst same
      rw [List.filter_cons_of_neg (by simp), List.filter_cons_of_neg (by simp), filter_ne_of_absent absent,
        filter_ne_of_absent fun member => absent (List.mem_of_mem_take member)]
    · have later : key ∈ keys.take n := (List.mem_cons.mp held).resolve_left (Ne.symm same)
      have kept : (first != key) = true := bne_iff_ne.mpr same
      rw [List.filter_cons_of_pos (p := (· != key)) kept, List.filter_cons_of_pos (p := (· != key)) kept]
      cases n with
      | zero => cases later
      | succ n => rw [List.take_succ_cons, ih once later]

theorem recent_nil (bound : Option Int) : limit bound (distinct []) = [] := by
  cases bound with
  | none => rfl
  | some n => exact List.take_nil

/-- A use of a key that is held brings it to the front. -/
theorem limit_use_held {bound : Option Int} {keys : List String} {key : String} (once : keys.Nodup)
    (held : key ∈ limit bound keys) :
    limit bound (key :: keys.filter (· != key)) = key :: (limit bound keys).filter (· != key) := by
  cases bound with
  | none => rfl
  | some n =>
    change key ∈ keys.take n.toNat at held
    change (key :: keys.filter (· != key)).take n.toNat = key :: (keys.take n.toNat).filter (· != key)
    obtain ⟨m, same⟩ : ∃ m, n.toNat = m + 1 := Nat.exists_eq_succ_of_ne_zero fun zero => by
      rw [zero] at held
      cases held
    rw [same] at held ⊢
    rw [List.take_succ_cons, take_filter_ne once held]

/-- A new key takes the place of the one that was used the longest time ago. -/
theorem limit_use_full {n : Int} {keys : List String} {key : String} (positive : 1 ≤ n)
    (absent : key ∉ limit (some n) keys) (full : n ≤ (limit (some n) keys).length) :
    limit (some n) (key :: keys.filter (· != key)) = key :: (limit (some n) keys).dropLast := by
  obtain ⟨m, rfl⟩ : ∃ m : Nat, n = (m + 1 : Nat) := ⟨n.toNat - 1, by omega⟩
  change key ∉ keys.take (m + 1) at absent
  change ((m + 1 : Nat) : Int) ≤ (keys.take (m + 1)).length at full
  change (key :: keys.filter (· != key)).take (m + 1) = key :: (keys.take (m + 1)).dropLast
  rw [List.length_take] at full
  have many : m + 1 ≤ keys.length := by omega
  have split : (keys.filter (· != key)).take m = keys.take m := by
    conv_lhs => rw [← List.take_append_drop (m + 1) keys, List.filter_append, filter_ne_of_absent absent]
    rw [List.take_append_of_le_length (by rw [List.length_take]; omega), List.take_take, Nat.min_eq_left (Nat.le_succ m)]
  have last : (keys.take (m + 1)).dropLast = keys.take m := by
    rw [List.dropLast_eq_take, List.take_take, List.length_take, Nat.min_eq_left many, Nat.add_sub_cancel,
      Nat.min_eq_left (Nat.le_succ m)]
  rw [List.take_succ_cons, split, last]

/-- A new key is added where there is room. -/
theorem limit_use_room {bound : Option Int} {keys : List String} {key : String} (absent : key ∉ limit bound keys)
    (room : ∀ n, bound = some n → (limit bound keys).length < n) :
    limit bound (key :: keys.filter (· != key)) = key :: limit bound keys := by
  cases bound with
  | none => exact congrArg (key :: ·) (filter_ne_of_absent absent)
  | some n =>
    have few := room n rfl
    change key ∉ keys.take n.toNat at absent
    change ((keys.take n.toNat).length : Int) < n at few
    change (key :: keys.filter (· != key)).take n.toNat = key :: keys.take n.toNat
    rw [List.length_take] at few
    have all : keys.take n.toNat = keys := List.take_of_length_le (by omega)
    rw [all] at absent ⊢
    rw [filter_ne_of_absent absent, List.take_of_length_le (by rw [List.length_cons]; omega)]

theorem contains_iff {c : Cache β} {key : String} : c.contains key = true ↔ key ∈ c.keys := by
  unfold contains keys
  rw [List.any_eq_true, List.mem_map]
  exact exists_congr fun e => and_congr_right' beq_iff_eq

/-- The cache with an entry as the one used last. -/
def touch (c : Cache β) (key : String) (v : β) : Cache β :=
  { c with entries := c.entries.filter (·.1 != key) ++ [(key, v)] }

theorem put_held {c : Cache β} {key : String} (held : key ∈ c.keys) (v : β) :
    c.put key v = .ok (c.touch key v, none) := by
  unfold put
  rw [if_pos (contains_iff.mpr held)]
  rfl

theorem put_full {c : Cache β} {key : String} (absent : key ∉ c.keys) (full : c.full = true) {dropped : String} {x : β}
    {rest : List (String × β)} (entries : c.entries = (dropped, x) :: rest) (v : β) :
    c.put key v = .ok ({ c with entries := rest ++ [(key, v)] }, some dropped) := by
  unfold put
  rw [if_neg (contains_iff.not.mpr absent), if_pos full, entries]

theorem put_room {c : Cache β} {key : String} (absent : key ∉ c.keys) (room : c.full = false) (v : β) :
    c.put key v = .ok ({ c with entries := c.entries ++ [(key, v)] }, none) := by
  unfold put
  rw [if_neg (contains_iff.not.mpr absent), if_neg (by rw [room]; exact Bool.false_ne_true)]

theorem get_held {c : Cache β} {key : String} {v : β} (known : c.peek key = .ok v) :
    c.get key = .ok (v, c.touch key v) := by
  unfold get
  rw [known]
  rfl

theorem get_absent {c : Cache β} {key : String} {e : Failure} (unknown : c.peek key = .error e) :
    c.get key = .error e := by
  unfold get
  rw [unknown]
  rfl

theorem keys_touch (c : Cache β) (key : String) (v : β) :
    (c.touch key v).keys = c.keys.filter (· != key) ++ [key] := by
  unfold touch keys
  rw [List.map_append, List.filter_map]
  rfl

theorem mem_touch {c : Cache β} {key : String} {v : β} {e : String × β} (member : e ∈ (c.touch key v).entries) :
    e ∈ c.entries ∧ e.1 ≠ key ∨ e = (key, v) := by
  rcases List.mem_append.mp member with old | new
  · exact .inl ⟨(List.mem_filter.mp old).1, bne_iff_ne.mp (List.mem_filter.mp old).2⟩
  · exact .inr (List.mem_singleton.mp new)

/-- A request that only looks. -/
def Request.looks : Request β → Bool
  | .peek _ | .contains _ | .size | .keys => true
  | _ => false

/-- What a cache holds after the requests of a history. -/
structure Recalls (limit : Option Int) (past : List (Request β)) (c : Cache β) : Prop where
  bound : c.bound = limit
  keys : c.keys = (recent limit past).reverse
  values : ∀ e ∈ c.entries, latest e.1 past = some e.2

section

variable {bound : Option Int} {past : List (Request β)} {c : Cache β} {key : String} {v : β}

theorem Recalls.mem_iff (recalls : Recalls bound past c) : key ∈ c.keys ↔ key ∈ recent bound past := by
  rw [recalls.keys, List.mem_reverse]

theorem Recalls.size (recalls : Recalls bound past c) : c.size = (recent bound past).length := by
  rw [← List.length_reverse, ← recalls.keys, Cache.keys, List.length_map]
  rfl

theorem Recalls.peek (recalls : Recalls bound past c) (key : String) : c.peek key = recalled bound past key := by
  unfold Cache.peek recalled
  cases found : c.entries.lookup key with
  | some v =>
    obtain ⟨before, later, same, _⟩ := List.lookup_eq_some_iff.mp found
    have member : (key, v) ∈ c.entries := by simp [same]
    have held : key ∈ recent bound past := recalls.mem_iff.mp (List.mem_map_of_mem (f := (·.1)) member)
    simp only [recalls.values _ member, if_pos held]
  | none =>
    have absent : key ∉ recent bound past := by
      intro held
      obtain ⟨e, member, rfl⟩ := List.mem_map.mp (recalls.mem_iff.mpr held)
      simpa using List.lookup_eq_none_iff.mp found e member
    simp only [if_neg absent]
    cases latest key past <;> rfl

theorem Recalls.full_iff (recalls : Recalls bound past c) :
    c.full = true ↔ ∃ n, bound = some n ∧ n ≤ (recent bound past).length := by
  unfold full
  rw [recalls.bound, ← recalls.size]
  cases bound with
  | none => simp
  | some n => simp [Cache.size]

/-- A use of a key that is held. -/
theorem Recalls.touch (recalls : Recalls bound past c) (held : key ∈ c.keys) {r : Request β}
    (used : uses bound (r :: past) = key :: uses bound past) (put : latest key (r :: past) = some v)
    (others : ∀ other, other ≠ key → latest other (r :: past) = latest other past) :
    Recalls bound (r :: past) (c.touch key v) where
  bound := recalls.bound
  keys := by
    rw [keys_touch, recalls.keys, recent, recent, used, distinct,
      limit_use_held (nodup_distinct _) (recalls.mem_iff.mp held), List.reverse_cons, List.filter_reverse]
  values e member := by
    rcases mem_touch member with ⟨old, other⟩ | rfl
    · rw [others e.1 other, recalls.values e old]
    · exact put

theorem latest_put_other {other : String} (unlike : other ≠ key) :
    latest other (.put key v :: past) = latest other past :=
  if_neg (Ne.symm unlike)

theorem latest_put : latest key (.put key v :: past) = some v := if_pos rfl

/-- A put never fails, and what it leaves is what its history tells. -/
theorem Recalls.put (recalls : Recalls bound past c) (positive : ∀ n, bound = some n → 1 ≤ n) (key : String) (v : β) :
    ∃ c' dropped, c.put key v = .ok (c', dropped) ∧ Recalls bound (.put key v :: past) c' := by
  by_cases held : key ∈ c.keys
  · exact ⟨_, _, put_held held v, recalls.touch held rfl latest_put fun _ => latest_put_other⟩
  · have absent : key ∉ recent bound past := fun member => held (recalls.mem_iff.mpr member)
    have older {e : String × β} (member : e ∈ c.entries) : latest e.1 (.put key v :: past) = some e.2 := by
      have other : e.1 ≠ key := fun same => held (same ▸ List.mem_map_of_mem (f := (·.1)) member)
      rw [latest_put_other other, recalls.values e member]
    cases full : c.full with
    | true =>
      obtain ⟨n, rfl, most⟩ := recalls.full_iff.mp full
      cases entries : c.entries with
      | nil =>
        -- A full cache holds as many entries as its bound, which is positive.
        have none_there : c.size = 0 := congrArg List.length entries
        have least := positive n rfl
        rw [recalls.size] at none_there
        omega
      | cons first rest =>
        obtain ⟨dropped, x⟩ := first
        have keys : dropped :: rest.map (·.1) = (recent (some n) past).reverse := by
          rw [← recalls.keys, Cache.keys, entries]
          rfl
        refine ⟨_, _, put_full held full entries v, recalls.bound, ?_, ?_⟩
        · have shown : rest.map (·.1) = (recent (some n) past).dropLast.reverse := by
            rw [← List.tail_reverse, ← keys, List.tail_cons]
          rw [recent, uses, distinct, limit_use_full (positive n rfl) absent most, List.reverse_cons]
          change (rest ++ [(key, v)]).map (·.1) = _
          rw [List.map_append, shown]
          rfl
        · intro e member
          rcases List.mem_append.mp member with old | new
          · exact older (entries ▸ List.mem_cons_of_mem _ old)
          · obtain rfl := List.mem_singleton.mp new
            exact latest_put
    | false =>
      have room : ∀ n, bound = some n → ((recent bound past).length : Int) < n := fun n same =>
        lt_of_not_ge fun most => Bool.eq_false_iff.mp full (recalls.full_iff.mpr ⟨n, same, most⟩)
      refine ⟨_, _, put_room held full v, recalls.bound, ?_, ?_⟩
      · rw [recent, uses, distinct, limit_use_room absent room, List.reverse_cons]
        change (c.entries ++ [(key, v)]).map (·.1) = _
        rw [List.map_append]
        exact congrArg (· ++ [key]) recalls.keys
      · intro e member
        rcases List.mem_append.mp member with old | new
        · exact older old
        · obtain rfl := List.mem_singleton.mp new
          exact latest_put

theorem Recalls.get (recalls : Recalls bound past c) (key : String) :
    c.get key = (recalled bound past key).map (fun v => (v, c.touch key v)) := by
  rw [← recalls.peek]
  cases known : c.peek key with
  | ok v => rw [get_held known]; rfl
  | error e => rw [get_absent known]; rfl

theorem recalled_ok (known : recalled bound past key = .ok v) : latest key past = some v ∧ key ∈ recent bound past := by
  unfold recalled at known
  split at known
  next held =>
    split at known
    next member =>
      cases known
      exact ⟨held, member⟩
    next => cases known
  next => cases known

/-- What is held has a value. -/
theorem Recalls.known (recalls : Recalls bound past c) (held : key ∈ c.keys) :
    ∃ v, recalled bound past key = .ok v := by
  obtain ⟨e, member, rfl⟩ := List.mem_map.mp held
  refine ⟨e.2, ?_⟩
  unfold Cache.recalled
  simp only [recalls.values e member, if_pos (recalls.mem_iff.mp held)]

theorem Recalls.look (recalls : Recalls bound past c) {r : Request β} (looks : r.looks = true) :
    Recalls bound (r :: past) c := by
  cases r with
  | peek | contains | size | keys => exact ⟨recalls.bound, recalls.keys, recalls.values⟩
  | put | get | clear => cases looks

/-- A request is answered as its history tells, and so are those that follow. -/
theorem Recalls.answer (recalls : Recalls bound past c) (positive : ∀ n, bound = some n → 1 ≤ n) (r : Request β) :
    (c.answer r).1 = expected bound past r ∧ Recalls bound (r :: past) (c.answer r).2 := by
  cases r with
  | put key v =>
    obtain ⟨c', dropped, done, next⟩ := recalls.put positive key v
    rw [Cache.answer, done]
    exact ⟨rfl, next⟩
  | get key =>
    have got := recalls.get key
    cases known : Cache.recalled bound past key with
    | ok v =>
      obtain ⟨put, held⟩ := recalled_ok known
      rw [known] at got
      rw [Cache.answer, got, expected, known]
      exact ⟨rfl, recalls.touch (recalls.mem_iff.mpr held) (if_pos held) put fun _ _ => rfl⟩
    | error e =>
      have absent : key ∉ recent bound past := by
        intro held
        obtain ⟨v, there⟩ := recalls.known (recalls.mem_iff.mpr held)
        cases known.symm.trans there
      rw [known] at got
      rw [Cache.answer, got, expected, known]
      refine ⟨rfl, recalls.bound, ?_, recalls.values⟩
      have unused : uses bound (.get key :: past) = uses bound past := if_neg absent
      rw [recent, unused]
      exact recalls.keys
  | peek key => exact ⟨congrArg (Except.map Answer.value) (recalls.peek key), recalls.look rfl⟩
  | contains key =>
    have same : c.contains key = decide (key ∈ recent bound past) := by
      rw [Bool.eq_iff_iff, contains_iff, recalls.mem_iff, decide_eq_true_iff]
    exact ⟨congrArg (fun b => Except.ok (Answer.truth b)) same, recalls.look rfl⟩
  | size => exact ⟨congrArg (fun n => Except.ok (Answer.number n)) recalls.size, recalls.look rfl⟩
  | keys => exact ⟨congrArg (fun ks => Except.ok (Answer.keys ks)) recalls.keys, recalls.look rfl⟩
  | clear =>
    refine ⟨rfl, recalls.bound, ?_, nofun⟩
    have none_there : recent bound (.clear :: past) = [] := recent_nil bound
    rw [none_there]
    rfl

theorem recalls_empty (bound : Option Int) : Recalls bound [] (Cache.empty bound : Cache β) := by
  refine ⟨rfl, ?_, nofun⟩
  have none_there : recent bound ([] : List (Request β)) = [] := recent_nil bound
  rw [none_there]
  rfl

theorem Recalls.after (recalls : Recalls bound past c) (positive : ∀ n, bound = some n → 1 ≤ n)
    (requests : List (Request β)) : Recalls bound (requests.reverse ++ past) (c.after requests) := by
  induction requests generalizing past c with
  | nil => exact recalls
  | cons r requests ih =>
    rw [List.reverse_cons, List.append_assoc]
    exact ih (recalls.answer positive r).2

theorem mem_limit_use (positive : ∀ n, bound = some n → 1 ≤ n) {other : String} {keys : List String} (once : keys.Nodup)
    (held : key ∈ limit bound (other :: keys.filter (· != other))) : key = other ∨ key ∈ limit bound keys := by
  by_cases known : other ∈ limit bound keys
  · rw [limit_use_held once known] at held
    exact (List.mem_cons.mp held).imp_right fun member => (List.mem_filter.mp member).1
  · by_cases full : ∃ n, bound = some n ∧ n ≤ (limit bound keys).length
    · obtain ⟨n, rfl, most⟩ := full
      rw [limit_use_full (positive n rfl) known most] at held
      exact (List.mem_cons.mp held).imp_right fun member => List.dropLast_subset _ member
    · rw [limit_use_room known fun n same => lt_of_not_ge fun most => full ⟨n, same, most⟩] at held
      exact List.mem_cons.mp held

/-- A key that is not held comes back by a put only. -/
theorem recent_cons (positive : ∀ n, bound = some n → 1 ≤ n) {r : Request β} (held : key ∈ recent bound (r :: past)) :
    key ∈ recent bound past ∨ ∃ v, r = .put key v := by
  cases r with
  | put other v =>
    rcases mem_limit_use positive (nodup_distinct _) held with rfl | member
    · exact .inr ⟨v, rfl⟩
    · exact .inl member
  | get other =>
    left
    by_cases known : other ∈ recent bound past
    · have used : uses bound (.get other :: past) = other :: uses bound past := if_pos known
      rw [recent, used] at held
      rcases mem_limit_use positive (nodup_distinct _) held with rfl | member
      · exact known
      · exact member
    · have unused : uses bound (.get other :: past) = uses bound past := if_neg known
      rwa [recent, unused] at held
  | clear =>
    have none_there : recent bound (.clear :: past) = [] := recent_nil bound
    rw [none_there] at held
    cases held
  | peek | contains | size | keys => exact .inl held

theorem recent_append (positive : ∀ n, bound = some n → 1 ≤ n) (absent : key ∉ recent bound past)
    {later : List (Request β)} (never : ∀ v, .put key v ∉ later) : key ∉ recent bound (later ++ past) := by
  induction later with
  | nil => exact absent
  | cons r later ih =>
    intro held
    rcases recent_cons positive held with earlier | ⟨v, rfl⟩
    · exact ih (fun v member => never v (List.mem_cons_of_mem r member)) earlier
    · exact never v List.mem_cons_self

theorem length_limit {n : Int} (positive : 1 ≤ n) (keys : List String) :
    ((limit (some n) keys).length : Int) = min n keys.length := by
  change ((keys.take n.toNat).length : Int) = _
  rw [List.length_take]
  omega

end

/-- A cache that holds the keys used last in a history, each with its latest value, and answers accordingly. -/
structure LeastRecent (bound : Option Int) (past : List (Request β)) (c : Cache β) : Prop where
  keys : c.keys = (recent bound past).reverse
  values : ∀ key ∈ c.keys, ∃ v, latest key past = some v ∧ c.peek key = .ok v
  unbounded : bound = none → c.size = (distinct (uses bound past)).length
  bounded : ∀ n, bound = some n → (c.size : Int) = min n (distinct (uses bound past)).length
  answers : ∀ r, (c.answer r).1 = expected bound past r
  looks : ∀ r : Request β, r.looks = true → (c.answer r).2 = c
  absent : ∀ key ∉ c.keys, c.answer (.get key) = (.error .unknownName, c) ∧
    c.answer (.peek key) = (.error .unknownName, c)
  returns : ∀ key ∉ c.keys, ∀ later, (∀ v, .put key v ∉ later) → key ∉ (c.after later).keys

/-- Whatever is asked of an empty cache, it then holds the keys that were used last since all was cleared, as many of
them as its bound allows, in the order of their last uses and each with the value that was last put there. It
answers what its history calls for; a look changes nothing, nor does a get of a key that is not held, which comes
back by a put only. -/
theorem least_recently_used (bound : Option Int) (positive : ∀ n, bound = some n → 1 ≤ n) (requests : List (Request β)) :
    LeastRecent bound requests.reverse ((Cache.empty bound).after requests) := by
  have recalls : Recalls bound requests.reverse ((Cache.empty bound : Cache β).after requests) := by
    have run := (recalls_empty bound).after positive requests
    rwa [List.append_nil] at run
  constructor
  case keys => exact recalls.keys
  case values =>
    intro key held
    obtain ⟨v, known⟩ := recalls.known held
    exact ⟨v, (recalled_ok known).1, (recalls.peek key).trans known⟩
  case unbounded =>
    rintro rfl
    exact recalls.size
  case bounded =>
    rintro n rfl
    rw [recalls.size]
    exact length_limit (positive n rfl) _
  case answers => exact fun r => (recalls.answer positive r).1
  case looks =>
    intro r looks
    cases r <;> first | rfl | cases looks
  case absent =>
    intro key absent
    have unknown : Cache.recalled bound requests.reverse key = .error .unknownName := by
      unfold Cache.recalled
      simp only [if_neg (recalls.mem_iff.not.mp absent)]
      cases latest key requests.reverse <;> rfl
    rw [Cache.answer, Cache.answer, recalls.get, recalls.peek, unknown]
    exact ⟨rfl, rfl⟩
  case returns =>
    intro key absent later never held
    rw [(recalls.after positive later).mem_iff] at held
    exact recent_append positive (recalls.mem_iff.not.mp absent)
      (fun v member => never v (List.mem_reverse.mp member)) held

/-- Of two places one is kept by a get, and the other goes to a new key. -/
theorem got_key_stays :
    let c : Cache Nat := (Cache.empty (some 2)).after [.put "a" 1, .put "b" 2, .get "a", .peek "b", .put "c" 3]
    (∀ n : Int, some 2 = some n → 1 ≤ n) ∧ c.keys = ["a", "c"] ∧ c.peek "a" = .ok 1 ∧
      c.answer (.get "b") = (.error .unknownName, c) := by
  intro c
  have positive : ∀ n : Int, some 2 = some n → 1 ≤ n := by
    rintro n ⟨⟩
    decide
  have last := least_recently_used (β := Nat) (some 2) positive
    [.put "a" 1, .put "b" 2, .get "a", .peek "b", .put "c" 3]
  have keys : c.keys = ["a", "c"] := last.keys
  obtain ⟨v, put, known⟩ := last.values "a" (keys ▸ List.mem_cons_self)
  cases put
  exact ⟨positive, keys, known, (last.absent "b" (by rw [keys]; decide)).1⟩

end ProbCore.Cache
