import Mathlib.Data.List.Sort
import Mathlib.Data.String.Basic
import RemoteDocker.Base.Table

/-!
# JSON values, decoded a level at a time

A JSON value, and what decoding one into a table, a list or a text gives. A level is decoded and
what is below stays as it is, so that a program can change some members of an object and keep the
rest. Where an object names a member twice, the later is decoded. `null` decodes as nothing: an
absent table, an empty list, an empty text. An object is encoded with its members sorted.
-/

namespace RemoteDocker.Base

inductive Json where
  | null
  | bool (b : Bool)
  | num (text : String)
  | str (text : String)
  | arr (items : List Json)
  | obj (members : List (String × Json))
  deriving Repr

abbrev Members := AList fun _ : String ↦ Json

namespace Json

/-- A table of members; `null` is one that was never made. -/
def toMembers : Json → Option (Option Members)
  | null => some none
  | obj members => some (some (tableOf members))
  | _ => none

def toText : Json → Option String
  | null => some ""
  | str text => some text
  | _ => none

def toItems : Json → Option (List Json)
  | null => some []
  | arr items => some items
  | _ => none

def toTables (j : Json) : Option (List (Option Members)) := j.toItems.bind (·.mapM toMembers)

def toTextMap (j : Json) : Option (AList fun _ : String ↦ String) :=
  match j with
  | null => some ∅
  | obj members =>
    (members.mapM fun m : String × Json ↦ m.2.toText.map fun text ↦ (m.1, text)).map tableOf
  | _ => none

def sorted {β : Type} (m : AList fun _ : String ↦ β) : List (String × β) :=
  (m.entries.map fun e ↦ (e.1, e.2)).insertionSort fun a b ↦ a.1 ≤ b.1

def ofMembers (m : Members) : Json := obj (sorted m)

def ofTable : Option Members → Json
  | none => null
  | some m => ofMembers m

def ofTables (tables : List (Option Members)) : Json := arr (tables.map ofTable)

def ofTextMap (m : AList fun _ : String ↦ String) : Json :=
  obj ((sorted m).map fun e ↦ (e.1, str e.2))

end Json
end RemoteDocker.Base
