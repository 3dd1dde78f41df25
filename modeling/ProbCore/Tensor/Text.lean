import ProbCore.Tensor
import ProbCore.Decimal.Shortest

/-! Arrays as text: rows in brackets, every cell as wide as the widest. -/

namespace ProbCore.Tensor

/-- The decimal digits and power of the shortest decimal that reads back in single
precision. -/
private def singleShortest (b : Decimal.Binary) : Decimal.Scaled := Decimal.shortestSingle b

/-- A cell before alignment: the part up to the point, and the part after it. -/
private structure Piece where
  whole : String
  fraction : Option String

private def Piece.ofText (s : String) : Piece :=
  match s.toList.span (· != '.') with
  | (whole, []) => ⟨String.ofList whole, none⟩
  | (whole, _ :: fraction) => ⟨String.ofList whole, some (String.ofList fraction)⟩

private def spaces (n : Nat) : String := String.ofList (List.replicate n ' ')

private def zeros (n : Nat) : String := String.ofList (List.replicate n '0')

/-- Digits on either side of the point, rounded to eight places and without closing zeros. -/
private def fixedPiece (x : Float) : Piece :=
  match Decimal.Binary.ofFloat? x with
  | none => ⟨if x.isNaN then "nan" else if x > 0 then "inf" else "-inf", none⟩
  | some b =>
    let sign := if b.negative then "-" else ""
    if b.mantissa == 0 then ⟨sign ++ "0", some ""⟩ else
      let d := singleShortest b
      let units :=
        if d.exponent ≥ -8 then d.digits * Decimal.pow10 (d.exponent + 8).toNat
        else Decimal.roundQuotient d.digits (Decimal.pow10 (-8 - d.exponent).toNat)
      let fraction := toString (units % Decimal.pow10 8)
      let padded := (zeros (8 - fraction.length) ++ fraction).toList
      ⟨sign ++ toString (units / Decimal.pow10 8),
        some (String.ofList ((padded.reverse.dropWhile (· == '0')).reverse))⟩

private def powerPiece (x : Float) : Piece × String :=
  match Decimal.Binary.ofFloat? x with
  | none => (⟨if x.isNaN then "nan" else if x > 0 then "inf" else "-inf", none⟩, "")
  | some b =>
    let sign := if b.negative then "-" else ""
    if b.mantissa == 0 then (⟨sign ++ "0", some ""⟩, "e+00") else
      let d := singleShortest b
      let digits := (toString d.digits).toList
      let e := d.exponent + digits.length - 1
      let digits := (digits.reverse.dropWhile (· == '0')).reverse
      (⟨sign ++ String.ofList (digits.take 1), some (String.ofList (digits.drop 1))⟩,
        "e" ++ Decimal.exponentText e)

/-- Very large, very small or widely spread cells are written with powers of ten. -/
private def needsPowers (xs : List Float) : Bool :=
  let sizes := (xs.filter fun x => x.isFinite && x != 0).map Float.abs
  match sizes with
  | [] => false
  | first :: rest =>
    let most := rest.foldl max first
    let least := rest.foldl min first
    most ≥ 1e8 || least < 1e-4 || most / least > 1000

private def widest (texts : List String) : Nat := (texts.map String.length).foldl max 0

private def fixedCells (xs : List Float) : List String :=
  let pieces := xs.map fixedPiece
  let points := pieces.filter (·.fraction.isSome)
  let right := widest (points.map fun p => p.fraction.getD "")
  let named := widest ((pieces.filter (·.fraction.isNone)).map (·.whole))
  let left := max (widest (points.map (·.whole))) (if points.isEmpty then named else named - (right + 1))
  pieces.map fun p =>
    match p.fraction with
    | some f => spaces (left - p.whole.length) ++ p.whole ++ "." ++ f ++ spaces (right - f.length)
    | none =>
      let width := if points.isEmpty then left else left + right + 1
      spaces (width - p.whole.length) ++ p.whole

private def powerCells (xs : List Float) : List String :=
  let pieces := xs.map powerPiece
  let points := pieces.filter (·.1.fraction.isSome)
  let right := widest (points.map fun p => p.1.fraction.getD "")
  let left := widest (points.map (·.1.whole))
  let texts := pieces.map fun (p, e) =>
    match p.fraction with
    | some f => spaces (left - p.whole.length) ++ p.whole ++ "." ++ f ++ zeros (right - f.length) ++ e
    | none => p.whole
  let width := widest texts
  texts.map fun t => spaces (width - t.length) ++ t

private def aligned (least : Nat) (texts : List String) : List String :=
  let width := max least (widest texts)
  texts.map fun t => spaces (width - t.length) ++ t

/-- Truth values take five places whether or not one of them is false. -/
private def cellTexts : Cells → List String
  | .reals xs => if needsPowers xs then powerCells xs else fixedCells xs
  | .ints ns => aligned 0 (ns.map toString)
  | .flags bs => aligned 5 (bs.map fun b => if b then "True" else "False")

private def withoutTail (line : String) : String :=
  String.ofList ((line.toList.reverse.dropWhile (· == ' ')).reverse)

/-- Words in lines of some width below an indent. A word that does not fit opens a new line,
unless it is the first of its line. -/
private def wrapped (separator : String) (width hang : Nat) (words : List String) : String :=
  go words "" (spaces hang)
where
  go : List String → String → String → String
    | [], done, line => done ++ line
    | word :: rest, done, line =>
      let full := line.length + word.length > width && line.length > hang
      let done := if full then done ++ withoutTail line ++ "\n" else done
      let line := (if full then spaces hang else line) ++ word
      go rest done (if rest.isEmpty then line else line ++ separator)

/-- Rows of rows, each further row on its own line below the opening bracket; one blank line
more for every axis that ends. -/
private def nested (comma : String) (shape : List Nat) (hang width : Nat) (cells : List String) :
    String :=
  match shape with
  | [] => cells.headD ""
  | [_] =>
    let lines := wrapped (comma ++ " ") (width - 1) hang cells
    "[" ++ String.ofList (lines.toList.drop hang) ++ "]"
  | n :: inner =>
    let step := size inner
    let rows := (List.range n).map fun i =>
      nested comma inner (hang + 1) (width - 1) ((cells.drop (i * step)).take step)
    let gap := comma ++ String.ofList (List.replicate inner.length '\n') ++ spaces hang
    "[" ++ String.intercalate gap rows ++ "]"

private def scalarText : Cells → String
  | .reals (x :: _) =>
    match Decimal.Binary.ofFloat? x with
    | none => Decimal.floatText Decimal.plainFormat x
    | some b => Decimal.decimalText Decimal.plainFormat b.negative (b.mantissa == 0) (singleShortest b)
  | .ints (n :: _) => toString n
  | .flags (b :: _) => if b then "True" else "False"
  | _ => ""

/-- Lines of arrays are no longer than this. -/
private def lineWidth : Nat := 75

def text (t : Tensor) : String :=
  if t.shape.isEmpty then scalarText t.cells
  else if t.cells.length == 0 then "[]"
  else nested "" t.shape 1 lineWidth (cellTexts t.cells)

private def kindName : Cells → String
  | .reals _ => "float32"
  | .ints _ => "int32"
  | .flags _ => "bool"

/-- The rows of an array below the indent of an opening word of six letters, which a comma
follows. -/
private def bodyText (t : Tensor) : String :=
  match t.shape, t.cells with
  | [], .flags (b :: _) => if b then "True" else "False"
  | shape, cells => nested "," shape 7 (lineWidth - 1) (cellTexts cells)

private def shapeText (shape : List Nat) : String :=
  match shape with
  | [n] => "(" ++ toString n ++ ",)"
  | dims => "(" ++ String.intercalate ", " (dims.map toString) ++ ")"

private def lastLine (s : String) : Nat := (s.toList.reverse.takeWhile (· != '\n')).length

/-- The array as a literal, with the kind of its cells. -/
def literal (t : Tensor) : String :=
  let body := if t.cells.length == 0 then "[], shape=" ++ shapeText t.shape else bodyText t
  let kind := "dtype=" ++ kindName t.cells ++ ")"
  let gap := if lastLine body + kind.length + 3 > lineWidth then spaces 6 else " "
  "Array(" ++ body ++ "," ++ gap ++ kind

/-- The array inside a displayed container. The kind of truth values shows by itself. -/
def innerText (t : Tensor) : String :=
  let kind := "dtype=" ++ kindName t.cells ++ ")"
  let body :=
    if t.cells.length != 0 then bodyText t
    else if t.shape == [0] then "[]"
    else "[], shape=" ++ shapeText t.shape
  match t.cells with
  | .flags (_ :: _) => "array(" ++ body ++ ")"
  | _ =>
    let opening := "array(" ++ body ++ ","
    let gap :=
      if lastLine opening + kind.length + 1 > lineWidth then "\n" ++ spaces 6 else " "
    opening ++ gap ++ kind

end ProbCore.Tensor
