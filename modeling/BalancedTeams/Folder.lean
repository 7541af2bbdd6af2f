import BalancedTeams.Text.Basic

/-!
# Files by path

* `Folder` : the files of one folder that holds no other folder;
* `PathFault` : why a file cannot be read or written;
* `PathName.names` : the names a path consists of, once it has led to a folder;
* `PathName.size?` : the number of bytes of a path;
* `Folder.read` : the text at a path relative to the folder;
* `Folder.place`, `Folder.put` : the name that a new text gets at a path, and the text put there.

The folder has others around it, of which nothing is known but that new files can be put right into
them. The null device is known; it is empty and takes every text.
-/

namespace BalancedTeams

inductive PathFault where
  /-- There is no such file, or no folder to put it into. -/
  | missing
  | isFolder
  /-- A name below a file. -/
  | belowFile
  | tooLong
  /-- A path with a null character. -/
  | unusable
  /-- A path with half of a surrogate pair that stands for no byte. -/
  | loneHalf
  deriving DecidableEq, Repr, Inhabited

namespace PathName

/-- The greatest number of bytes of a name. -/
def maxName : Nat := 255

/-- The greatest number of bytes of a path. -/
def maxPath : Nat := 4095

/-- The number of bytes of a code point. The halves from U+DC80 to U+DCFF stand for one byte each;
the others cannot be in a path. -/
def width? : CodePoint → Option Nat
  | .char c => some c.utf8Size
  | .half i => if 0x480 ≤ i.val ∧ i.val < 0x500 then some 1 else none

def size? (path : Text) : Option Nat := (path.mapM width?).map fun ns => ns.foldl (· + ·) 0

def fits (most : Nat) (path : Text) : Bool := (size? path).any fun n => decide (n ≤ most)

def nullCharacter : CodePoint := Char.ofNat 0

def split : Text → List Text
  | [] => [[]]
  | c :: rest =>
    match split rest with
    | [] => [[c]]
    | part :: parts => if c = '/' then [] :: part :: parts else (c :: part) :: parts

/-- Whether a part stays where it is: an empty one, or a dot. -/
def stays (part : Text) : Bool := part.isEmpty || part == "."

/-- A part that leads out of the folder. -/
def leavesFolder (part : Text) : Bool := part == ".."

/-- Whether a part leads from a folder to a folder. -/
def isStep (part : Text) : Bool := stays part || leavesFolder part

def steps (path : Text) : List Text := (split path).takeWhile isStep

def names (path : Text) : List Text := (split path).dropWhile isStep

/-- Whether the steps lead to another folder. -/
def isOutside (path : Text) : Bool :=
  path.head? == some (CodePoint.char '/') || (steps path).any leavesFolder

def nullDevice : Text := "/dev/null"

end PathName

structure Folder where
  /-- Texts by name; each name occurs once. -/
  files : List (Text × String)
  deriving DecidableEq, Repr, Inhabited

namespace Folder
open PathName

def find? (f : Folder) (name : Text) : Option String :=
  (f.files.find? fun e => e.1 == name).map Prod.snd

def put (f : Folder) (name : Text) (content : String) : Folder :=
  ⟨f.files.filter (fun e => e.1 != name) ++ [(name, content)]⟩

def read (f : Folder) (path : Text) : Except PathFault String :=
  if path.isEmpty || path.contains nullCharacter || !fits maxPath path then .error .missing
  else if path = nullDevice then .ok ""
  else match names path with
    | [] => .error .isFolder
    | [name] =>
      if isOutside path then .error .missing else (f.find? name).elim (.error .missing) .ok
    | _ => .error .missing

/-- What a path leads to when something is put there: the name of a file in the folder, or nothing
where no trace is left. A path that ends in a slash names a folder. -/
def place (f : Folder) (path : Text) : Except PathFault (Option Text) :=
  if (size? path).isNone then .error .loneHalf
  else if path.contains nullCharacter then .error .unusable
  else if path.isEmpty then .error .missing
  else if !fits maxPath path then .error .tooLong
  else if path = nullDevice then .ok none
  else match names path with
    | [] => .error .isFolder
    | name :: below =>
      if !fits maxName name then .error .tooLong
      else if below.isEmpty then .ok (if isOutside path then none else some name)
      else if below.all List.isEmpty then .error .isFolder
      else if !isOutside path && (f.find? name).isSome then .error .belowFile
      else .error .missing

end Folder
end BalancedTeams
