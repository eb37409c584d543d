/-
  TsProject.Host.Disk — a file system with real links.

  Every object has one location, the names on the way from the root through
  directories only. A path is looked up name by name from the root or the working
  directory, following symbolic links and stopping where there are too many. Files
  hold bytes; reading one as text decodes UTF-8 without a byte order mark, falls back
  to Latin-1, and turns every line end into a line feed.

  (1) Objects and locations. (2) Looking up. (3) Changing. (4) Text files. (5) Real
  paths. (6) The host.
-/

import TsProject.Host
import TsProject.Text.Utf8

namespace TsProject.Host

open CodePoint

/-! ## (1) Objects and locations -/

/-- Names from the root. -/
abbrev Place := List Text

inductive Object where
  | file (bytes : List Text.Utf8.Byte)
  | directory
  | link (target : Text)
  deriving DecidableEq

structure Disk where
  /-- All objects but the root. -/
  objects : List (Place × Object) := []
  workingDirectory : Place := []

namespace Disk

def object? (d : Disk) (p : Place) : Option Object :=
  if p.isEmpty then some .directory else (d.objects.find? (·.1 == p)).map (·.2)

def pathOf (p : Place) : Text := if p.isEmpty then [slash] else p.flatMap fun name => slash :: name

/-! ## (2) Looking up -/

/-- The names a path goes through; a slash at its end asks for a directory and counts as `.`. -/
def steps (path : Text) : List Text :=
  let names := Path.names path
  if Text.endsWith path [slash] then names ++ [Path.dotSegment] else names

def startOf (d : Disk) (path : Text) : Place := if Path.startsAtRoot path then [] else d.workingDirectory

/-- How many links one look-up follows. -/
def linkLimit : Nat := 40

/-- Follows the names from a directory. The result is where the last name leads, whether or not there
is an object; `links` bounds the links that may still be followed and `budget` the names. -/
def walk (d : Disk) (followLast : Bool) : Nat → Nat → Place → List Text → Option Place
  | _, _, here, [] => some here
  | 0, _, _, _ :: _ => none
  | budget + 1, links, here, name :: rest =>
    if name = Path.dotSegment then walk d followLast budget links here rest
    else if name = Path.dotDotSegment then walk d followLast budget links here.dropLast rest
    else
      let there := here ++ [name]
      match d.object? there with
      | some .directory => walk d followLast budget links there rest
      | some (.link target) =>
        if rest.isEmpty && !followLast then some there
        else match links with
          | 0 => none
          | links + 1 =>
            let start := if Path.startsAtRoot target then [] else here
            walk d followLast budget links start (steps target ++ rest)
      | some (.file _) => if rest.isEmpty then some there else none
      | none => if rest.isEmpty then some there else none

/-- Enough for the names of a path and of all links that may be followed. -/
def budget (d : Disk) (path : Text) : Nat :=
  let longest := d.objects.foldl (fun n o => match o.2 with
    | .link target => max n (target.length + 1)
    | _ => n) 0
  path.length + 1 + linkLimit * longest

/-- Where a path leads; the empty path leads nowhere. -/
def find (d : Disk) (followLast : Bool) (path : Text) : Option Place :=
  if path.isEmpty then none
  else d.walk followLast (d.budget path) linkLimit (d.startOf path) (steps path)

def at? (d : Disk) (path : Text) : Option Object := (d.find true path).bind d.object?

/-! ## (3) Changing -/

inductive ChangeError where
  | noSuchPlace
  deriving DecidableEq

def put (d : Disk) (p : Place) (o : Object) : Disk :=
  { d with objects := d.objects.filter (·.1 != p) ++ [(p, o)] }

/-- Makes the directories along a path that are not there yet. -/
def makeDirectories (d : Disk) (path : Text) : Except ChangeError Disk :=
  let names := Path.names path
  let whole (n : Nat) : Text :=
    (if Path.startsAtRoot path then [slash] else []) ++ Text.join [slash] (names.take n)
  (List.range names.length).foldlM (fun d i =>
    match d.find true (whole (i + 1)) with
    | none => .error .noSuchPlace
    | some p => match d.object? p with
      | none => .ok (d.put p .directory)
      | some .directory => .ok d
      | some _ => .error .noSuchPlace) d

def makeParents (d : Disk) (path : Text) : Except ChangeError Disk := d.makeDirectories (Path.parent path)

def write (d : Disk) (path : Text) (bytes : List Text.Utf8.Byte) : Except ChangeError Disk := do
  let d ← d.makeParents path
  match d.find true path with
  | none => throw .noSuchPlace
  | some p => if d.object? p = some .directory then throw .noSuchPlace else return d.put p (.file bytes)

def symlink (d : Disk) (path target : Text) : Except ChangeError Disk := do
  let d ← d.makeParents path
  match d.find false path with
  | none => throw .noSuchPlace
  | some p => if (d.object? p).isSome then throw .noSuchPlace else return d.put p (.link target)

/-- Removes an object and all below it. -/
def remove (d : Disk) (path : Text) : Except ChangeError Disk :=
  match d.find false path with
  | none => .error .noSuchPlace
  | some p =>
    if (d.object? p).isNone then .error .noSuchPlace
    else .ok { d with objects := d.objects.filter fun o => !p.isPrefixOf o.1 }

def changeDirectory (d : Disk) (path : Text) : Except ChangeError Disk :=
  match d.find true path with
  | none => .error .noSuchPlace
  | some p => if d.object? p = some .directory then .ok { d with workingDirectory := p } else .error .noSuchPlace

/-! ## (4) Text files -/

/-- CR LF and CR as LF. -/
def unifyLineEnds : Text → Text
  | [] => []
  | carriageReturn :: lineFeed :: s => lineFeed :: unifyLineEnds s
  | c :: s => (if c = carriageReturn then lineFeed else c) :: unifyLineEnds s

def byteOrderBytes : List Text.Utf8.Byte := [0xEF, 0xBB, 0xBF]

/-- The bytes of a file without the byte order mark at their start; the mark cut short and nothing else
is no text either. -/
def withoutMark (bytes : List Text.Utf8.Byte) : List Text.Utf8.Byte :=
  if byteOrderBytes.isPrefixOf bytes then bytes.drop 3 else if bytes.isPrefixOf byteOrderBytes then [] else bytes

def decode (bytes : List Text.Utf8.Byte) : Text :=
  unifyLineEnds ((Text.Utf8.decode? false (withoutMark bytes)).getD bytes)

def text? (d : Disk) (path : Text) : Option Text :=
  match d.at? path with
  | some (.file bytes) => some (decode bytes)
  | _ => none

/-- Names under a directory by what they lead to; a link that leads nowhere is neither a file nor a
directory. -/
def entries (d : Disk) (path : Text) : List Text × List Text :=
  match d.find true (if path.isEmpty then Path.dotSegment else path) with
  | none => ([], [])
  | some p =>
    let names := d.objects.filterMap fun o =>
      match o.1.getLast? with
      | some name => if o.1.dropLast = p then some name else none
      | none => none
    let leadsTo (name : Text) : Option Object := d.at? (pathOf (p ++ [name]))
    let isFile (name : Text) : Bool := match leadsTo name with
      | some (.file _) => true
      | _ => false
    let isDirectory (name : Text) : Bool := match leadsTo name with
      | some .directory => true
      | _ => false
    ((names.filter isFile).mergeSort Text.le, (names.filter isDirectory).mergeSort Text.le)

/-! ## (5) Real paths -/

/-- A link that is being resolved, or has been. -/
abbrev Seen := List (Place × Option Place)

/-- Follows names as far as there are links to follow; names that lead nowhere are kept. At a link that
is being resolved already the rest is kept as it is, which the flag tells. -/
def resolveNames (d : Disk) : Nat → Seen → Place → List Text → Place × Bool × Seen
  | _, seen, here, [] => (here, true, seen)
  | 0, seen, here, rest => (here ++ rest, false, seen)
  | budget + 1, seen, here, name :: rest =>
    if name = Path.dotSegment then resolveNames d budget seen here rest
    else if name = Path.dotDotSegment then resolveNames d budget seen here.dropLast rest
    else
      let there := here ++ [name]
      match d.object? there with
      | some (.link target) =>
        match seen.find? (·.1 == there) with
        | some (_, some resolved) => resolveNames d budget seen resolved rest
        | some (_, none) => (there ++ rest, false, seen)
        | none =>
          let start := if Path.startsAtRoot target then [] else here
          match resolveNames d budget ((there, none) :: seen) start (Path.names target) with
          | (p, false, seen) => (p ++ rest, false, seen)
          | (p, true, seen) => resolveNames d budget ((there, some p) :: seen) p rest
      | _ => resolveNames d budget seen there rest

def realpath (d : Disk) (path : Text) : Text :=
  let (p, _) := d.resolveNames (d.budget path) [] (d.startOf path) (Path.names path)
  pathOf (Path.fold true (p.filter (· != Path.dotSegment)))

/-! ## (6) The host -/

def tree (d : Disk) : Glob.Tree := ⟨d.entries, d.realpath, d.objects.length + 2⟩

/-- A file can be read under one path for every number of links that may be followed on the way. -/
def host (d : Disk) (caseSensitive : Bool) : Host where
  caseSensitive := caseSensitive
  text? := d.text?
  fileExists p := match d.at? p with
    | some (.file _) => true
    | _ => false
  currentDirectory := pathOf d.workingDirectory
  tree := d.tree
  readableFiles := d.objects.length * (linkLimit + 1)

end Disk

end TsProject.Host
