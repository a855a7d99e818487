import I18nZh.Po.Merge

/-!
# `po2translated.py`

The script goes over the lines of a PO file and prints the names that the comments of
its translated entries give.  `startswith` is the prefix relation.
-/

namespace I18nZh
namespace Po
namespace Translated

open Merge (FileSystem join)

inductive Error where
  | assertionError
  | indexError
  | ioError
  deriving DecidableEq, Repr

def foo (line : Text) : Except Error (List Text) :=
  let line := line.drop 3
  let words := (line.splitOn ',').map strip
  if ∀ x ∈ words, text "name for " <+: x then return words.map (List.drop 9)
  else throw .assertionError

structure State where
  res : List Text
  subres : List Text
  deriving DecidableEq, Repr

/-- The body of the loop. -/
def readLine (st : State) (line : Text) : Except Error State :=
  if text "#." <+: line then do
    let res := st.res ++ st.subres
    let subres ← foo line
    return { res, subres }
  else if text "#, fuzzy" <+: line then return { st with subres := [] }
  else if text "msgstr \"\"" <+: line then return { st with subres := [] }
  else return st

/-- What is printed, unless an exception ends the script. -/
def main (argv : List Text) (fs : FileSystem) : Except Error Text :=
  match argv with
  | _ :: path :: _ =>
    match fs path with
    | none => throw .ioError
    | some ifile => do
      let st ← (fileLines ifile).foldlM readLine { res := [], subres := [] }
      return join st.res ++ text "\n"
  | _ => throw .indexError

end Translated
end Po
end I18nZh
