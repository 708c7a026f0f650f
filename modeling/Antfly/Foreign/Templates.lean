import Antfly.Bytes
import Antfly.Lib.Substitution

/-!
A document's key and the values of its transforms are made from the decoded row of a foreign table.
References to columns are found in the template, and then the text of each is replaced by its
column's value, everywhere in what the template has become so far.
-/

namespace Antfly.Foreign

open Substitution

/-- A value of a decoded row.  Numbers, booleans and times carry the text they are printed as, and
the entries of a map stand in the order of their keys. -/
inductive RowValue where
  | null
  | text (s : Bytes)
  | scalar (printed : Bytes)
  | list (vs : List RowValue)
  | map (fields : List (Bytes × RowValue))

abbrev Row := List (Bytes × RowValue)

mutual

/-- `fmt.Sprintf("%v", v)`. -/
def RowValue.sprint : RowValue → Bytes
  | .null => ascii "<nil>".toList
  | .text s => s
  | .scalar printed => printed
  | .list vs => ascii "[".toList ++ sprintList vs ++ ascii "]".toList
  | .map fields => ascii "map[".toList ++ sprintFields fields ++ ascii "]".toList

def sprintList : List RowValue → Bytes
  | [] => []
  | [v] => v.sprint
  | v :: w :: vs => v.sprint ++ ascii " ".toList ++ sprintList (w :: vs)

def sprintFields : List (Bytes × RowValue) → Bytes
  | [] => []
  | [(key, v)] => key ++ ascii ":".toList ++ v.sprint
  | (key, v) :: field :: fields =>
    key ++ ascii ":".toList ++ v.sprint ++ ascii " ".toList ++ sprintFields (field :: fields)

end

def lookupField (fields : List (Bytes × RowValue)) (key : Bytes) : Option RowValue :=
  (fields.find? fun field => field.1 = key).map Prod.snd

inductive TemplateError where
  | emptyKeyTemplate
  | keyColumnNotFound (column : Bytes)
  | keyColumnNull (column : Bytes)
  | emptyReference
  | columnNotFound (column : Bytes)
  | nonMap (part : Bytes)
  | keyNotFound (part : Bytes)
  deriving DecidableEq

/-- The error's text, in which `%q` stands for the name it is about. -/
def TemplateError.format : TemplateError → String
  | .emptyKeyTemplate => "empty key template"
  | .keyColumnNotFound _ => "key column %q not found in row"
  | .keyColumnNull _ => "key column %q is null"
  | .emptyReference => "empty column reference"
  | .columnNotFound _ => "column %q not found in row"
  | .nonMap _ => "cannot navigate into non-map value at %q"
  | .keyNotFound _ => "key %q not found in nested map"

/-- `\w`. -/
def isWordByte (b : UInt8) : Bool :=
  (48 ≤ b && b ≤ 57) || (65 ≤ b && b ≤ 90) || b = 95 || (97 ≤ b && b ≤ 122)

/-- `strings.Split` at the dots. -/
def splitDots : Bytes → List Bytes
  | [] => [[]]
  | b :: s =>
    if b = 46 then [] :: splitDots s
    else
      match splitDots s with
      | [] => [[b]]
      | part :: parts => (b :: part) :: parts

def openBraces : Bytes := [123, 123]

def closeBraces : Bytes := [125, 125]

/-- The text that a reference matches. -/
def refText (name : Bytes) : Bytes := openBraces ++ name ++ closeBraces

/-- `columnRefPattern` at the start of the text, which is `\w+(?:\.\w+)*` between double braces. -/
def matchRef (s : Bytes) : Option Bytes :=
  let name := (s.drop 2).takeWhile fun b => isWordByte b || b = 46
  if (splitDots name).all (fun part => !part.isEmpty) ∧ refText name <+: s then some name else none

/-- The matches, from the left and without overlaps, and the bytes between them. -/
def piecesFrom : ℕ → Bytes → List (Piece UInt8 Bytes)
  | _, [] => []
  | skip + 1, _ :: s => piecesFrom skip s
  | 0, b :: s =>
    match matchRef (b :: s) with
    | some name => .ref name :: piecesFrom ((refText name).length - 1) s
    | none => .letter b :: piecesFrom 0 s

def pieces (template : Bytes) : List (Piece UInt8 Bytes) := piecesFrom 0 template

def Piece.name? : Piece UInt8 Bytes → Option Bytes
  | .letter _ => none
  | .ref name => some name

/-- `columnRefPattern.FindAllStringSubmatch`. -/
def columnRefs (template : Bytes) : List Bytes := (pieces template).filterMap Piece.name?

def keyColumn (row : Row) (column : Bytes) : Except TemplateError RowValue :=
  match lookupField row column with
  | none => .error (.keyColumnNotFound column)
  | some .null => .error (.keyColumnNull column)
  | some val => .ok val

def replaceKeyColumns (row : Row) (columns : List Bytes) (keyTemplate : Bytes) :
    Except TemplateError Bytes :=
  columns.foldlM (fun result column => do
    let val ← keyColumn row column
    return replaceAll (refText column) val.sprint result) keyTemplate

def extractKey (row : Row) (keyTemplate : Bytes) : Except TemplateError Bytes :=
  if keyTemplate = [] then .error .emptyKeyTemplate
  else if !contains keyTemplate openBraces then do
    let val ← keyColumn row keyTemplate
    return val.sprint
  else replaceKeyColumns row (columnRefs keyTemplate) keyTemplate

def navigateKey (val : RowValue) (part : Bytes) : Except TemplateError RowValue :=
  match val with
  | .map m =>
    match lookupField m part with
    | none => .error (.keyNotFound part)
    | some val => .ok val
  | _ => .error (.nonMap part)

def navigateColumnRef (ref : Bytes) (row : Row) : Except TemplateError RowValue :=
  match splitDots ref with
  | [] => .error .emptyReference
  | column :: parts =>
    match lookupField row column with
    | none => .error (.columnNotFound column)
    | some val => parts.foldlM navigateKey val

def replaceColumns (row : Row) (refs : List Bytes) (strVal : Bytes) : Except TemplateError Bytes :=
  refs.foldlM (fun result ref => do
    let colVal ← navigateColumnRef ref row
    return replaceAll (refText ref) colVal.sprint result) strVal

def resolveValue (value : RowValue) (row : Row) : Except TemplateError RowValue :=
  match value with
  | .text strVal =>
    match columnRefs strVal with
    | [] => .ok value
    | ref :: refs =>
      if refs = [] ∧ refText ref = strVal then navigateColumnRef ref row
      else do
        let result ← replaceColumns row (ref :: refs) strVal
        return .text result
  | _ => .ok value

end Antfly.Foreign
