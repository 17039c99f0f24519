import DoubleArrayTrie.Image.Mapping
import DoubleArrayTrie.Trie.Query

/-!
# Sessions

A session has tries and files, each known by a name, and at most one current trie. Each file that is
made has a number of its own, so that a file that takes the place of another under its name is told
from it. A trie that is mapped from a file knows the number of the file, and what it writes goes the
way of the mapping, for as long as the file is there.

The events of all tries of a session are collected in one journal.
-/

namespace DoubleArrayTrie

/-- Values under names, each name at most once. -/
abbrev Named (α : Type) := List (String × α)

/-- Puts a value under a name, in place of the one that is there. -/
def Named.assign {α : Type} (names : Named α) (name : String) (a : α) : Named α :=
  match names with
  | [] => [(name, a)]
  | (n, b) :: rest => if n = name then (n, a) :: rest else (n, b) :: Named.assign rest name a

/-- A file: its number and its content. -/
structure File where
  number : Nat
  content : List UInt8

/-- A trie of a session, with the file that it is mapped from. -/
structure Resident where
  trie : Trie
  view? : Option View := none

/-- Tries and files under names. -/
structure Session where
  tries : Named Resident := []
  current : Option String := none
  files : Named File := []
  /-- The number of the next file. -/
  nextFile : Nat := 0
  journal : Array Event := #[]

namespace Session

/-- The current trie. -/
def resident? (s : Session) : Option Resident := s.current.bind fun name => s.tries.lookup name

def trie? (s : Session) : Option Trie := s.resident?.map (·.trie)

/-- Puts a trie under a name and makes it current. -/
def install (s : Session) (name : String) (r : Resident) : Session :=
  { s with tries := Named.assign s.tries name r, current := some name }

/-- Makes a trie under a name. -/
def create (s : Session) (name : String) (e : Encoding) (o : Options) : Except Error Session :=
  (Trie.create e o).map fun t => s.install name ⟨t, none⟩

/-- Makes the trie of that name current, if there is one. -/
def select (s : Session) (name : String) : Session :=
  if (s.tries.lookup name).isSome then { s with current := some name } else s

/-- Puts a copy of the current trie under a name. -/
def duplicate (s : Session) (name : String) : Session :=
  match s.trie? with
  | none => s
  | some t => { s with tries := Named.assign s.tries name ⟨t.copy, none⟩ }

/-- Removes the trie of that name, and says whether there was one. -/
def remove (s : Session) (name : String) : Session × Bool :=
  ({ s with
      tries := s.tries.filter fun entry => entry.1 != name
      current := if s.current = some name then none else s.current },
    (s.tries.lookup name).isSome)

/-- The events since the last time they were taken. -/
def takeEvents (s : Session) : Session × List Event :=
  ({ s with journal := #[] }, s.journal.toList)

/-! ### Files -/

/-- The content of a file. -/
def content? (s : Session) (name : String) : Option (List UInt8) :=
  (s.files.lookup name).map (·.content)

/-- Puts a new file under a name. -/
def putFile (s : Session) (name : String) (content : List UInt8) : Session :=
  { s with
    files := Named.assign s.files name ⟨s.nextFile, content⟩
    nextFile := s.nextFile + 1 }

/-- Puts a new file under a name that has the changed content of the file there. -/
def reviseFile (s : Session) (name : String) (f : List UInt8 → List UInt8) : Session :=
  match s.content? name with
  | none => s
  | some content => s.putFile name (f content)

/-- Puts a new file with the content of another under a name. -/
def copyFile (s : Session) (source target : String) : Session :=
  match s.content? source with
  | none => s
  | some content => s.putFile target content

/-- Changes the content of the file with this number, wherever it is. -/
def modifyFile (s : Session) (number : Nat) (f : List UInt8 → List UInt8) : Session :=
  { s with
    files := s.files.map fun (name, file) =>
      (name, if file.number = number then { file with content := f file.content } else file) }

/-! ### Changes to the current trie -/

/-- Changes the current trie. Its events go to the journal, and its file is brought up to date. -/
def change {α : Type} (s : Session) (f : Trie → Trie × α) (m : Mapping := .direct) :
    Option (Session × α) :=
  match s.current with
  | none => none
  | some name =>
      match s.tries.lookup name with
      | none => none
      | some r =>
          let (t, a) := f r.trie
          let events := t.pool.journal
          let t : Trie := { t with pool := { t.pool with journal := #[] } }
          let s :=
            { s with
              tries := Named.assign s.tries name { r with trie := t }
              journal := s.journal ++ events }
          match r.view? with
          | none => some (s, a)
          | some v => some (s.modifyFile v.number (t.pool.writeBack m v), a)

/-! ### Images in files -/

/-- Why a trie cannot be loaded. -/
inductive LoadFault where
  /-- There is no such file. -/
  | noFile
  /-- The content of the file is refused. -/
  | refused (error : Error)

/-- Whether a name leads through a directory. A session has none. -/
def inDirectory (name : String) : Bool := name.toList.contains '/'

/-- Writes the image of the current trie to a new file. Returns its length. -/
def exportImage (s : Session) (name : String) : Option (Session × Nat) :=
  s.trie?.map fun t => (s.putFile name t.image, t.imageSize)

/-- Writes the image of the current trie to the file of that name, unless its directory is missing.
Returns its length. -/
def save (s : Session) (name : String) : Option (Session × Nat) :=
  if inDirectory name then none
  else
    (s.exportImage name).map fun (s, size) =>
      ({ s with journal := s.journal.push (.saved size) }, size)

/-- Puts the trie whose image is in a file under a name, as a copy. -/
def importImage (s : Session) (name : String) (e : Encoding) (file : String) :
    Except LoadFault Session :=
  match s.content? file with
  | none => .error .noFile
  | some content =>
      match Trie.ofImage? e .copy content with
      | .error err => .error (.refused err)
      | .ok t => .ok (s.install name ⟨t, none⟩)

/-- Loads the trie whose image is in a file under a name. -/
def load (s : Session) (name : String) (e : Encoding) (file : String) (mode : LoadMode) :
    Except LoadFault Session :=
  match s.files.lookup file with
  | none => .error .noFile
  | some f =>
      match Trie.ofImage? e mode f.content with
      | .error err => .error (.refused err)
      | .ok t =>
          let s := s.install name
            ⟨t, mode.sharing?.map fun sharing => ⟨f.number, sharing, t.pool.capacity⟩⟩
          .ok { s with journal := s.journal.push (.loaded t.pool.capacity mode e) }

end Session

end DoubleArrayTrie
