/-
  TsProject.Proofs.Glob.Folder — finite directory trees.

  A folder is a list of files and folders, each under its name; a place in it is the
  list of names that leads there. `Folder.tree` is the structure a search runs on.

  - `mem_filePlaces`: the places of files are a folder that is found and a file in it.
  - `mem_folderPlaces_of_at?`: the places that are found are among finitely many.
-/

import TsProject.Glob.Walk
import TsProject.Proofs.Glob.Component

namespace TsProject.Glob

open CodePoint TsProject.Path

/-- The content of a directory, entry by entry. -/
inductive Folder where
  | empty
  | file (name : Text) (rest : Folder)
  | folder (name : Text) (inside rest : Folder)

namespace Folder

/-! ## Entries and places -/

def files : Folder → List Text
  | empty => []
  | file name rest => name :: rest.files
  | folder _ _ rest => rest.files

def folders : Folder → List Text
  | empty => []
  | file _ rest => rest.folders
  | folder name _ rest => name :: rest.folders

def inside? : Folder → Text → Option Folder
  | empty, _ => none
  | file _ rest, n => rest.inside? n
  | folder name inside rest, n => if n = name then some inside else rest.inside? n

/-- The folder at a place. -/
def at? (d : Folder) : List Text → Option Folder
  | [] => some d
  | n :: ns => (d.inside? n).bind (·.at? ns)

/-- The places of all files, at any depth. -/
def filePlaces : Folder → List (List Text)
  | empty => []
  | file name rest => [name] :: rest.filePlaces
  | folder name inside rest => inside.filePlaces.map (name :: ·) ++ rest.filePlaces

/-- The places of all folders below this one. -/
def folderPlaces : Folder → List (List Text)
  | empty => []
  | file _ rest => rest.folderPlaces
  | folder name inside rest => [name] :: (inside.folderPlaces.map (name :: ·) ++ rest.folderPlaces)

/-- Every entry is named as an entry may be, and no two files or two folders of a directory share a name. -/
def Valid : Folder → Prop
  | empty => True
  | file name rest => IsEntryName name ∧ name ∉ rest.files ∧ rest.Valid
  | folder name inside rest => IsEntryName name ∧ name ∉ rest.folders ∧ inside.Valid ∧ rest.Valid

instance decidableValid : (d : Folder) → Decidable d.Valid
  | empty => .isTrue trivial
  | file _ rest =>
    have := decidableValid rest
    inferInstanceAs (Decidable (_ ∧ _ ∧ _))
  | folder _ inside rest =>
    have := decidableValid inside
    have := decidableValid rest
    inferInstanceAs (Decidable (_ ∧ _ ∧ _ ∧ _))

/-- The absolute paths of all files of a folder that stands for the root. -/
def filePaths (root : Folder) : List Text := root.filePlaces.map absolute

/-- The directories of a search: no links, and a path without a folder lists nothing. A walk nests no
deeper than the folders below the directory it starts from. -/
def tree (root : Folder) : Tree where
  entries p := ((root.at? (names p)).map fun d => (d.files, d.folders)).getD ([], [])
  realpath := id
  levels := root.folderPlaces.length + 1

/-- The same directories, listed under every spelling of their paths. -/
def resolving (root : Folder) : Tree where
  entries p := ((root.at? (rootedNames p)).map fun d => (d.files, d.folders)).getD ([], [])
  realpath := id
  levels := root.folderPlaces.length + 1

/-- Every name is one that normalization leaves alone. -/
def Plain : Folder → Prop
  | empty => True
  | file name rest => IsPlain name ∧ rest.Plain
  | folder name inside rest => IsPlain name ∧ inside.Plain ∧ rest.Plain

instance decidablePlain : (d : Folder) → Decidable d.Plain
  | empty => .isTrue trivial
  | file _ rest =>
    have := decidablePlain rest
    inferInstanceAs (Decidable (_ ∧ _))
  | folder _ inside rest =>
    have := decidablePlain inside
    have := decidablePlain rest
    inferInstanceAs (Decidable (_ ∧ _ ∧ _))

/-! ## Looking up -/

theorem mem_folders {d : Folder} {n : Text} : n ∈ d.folders ↔ ∃ e, d.inside? n = some e := by
  induction d with
  | empty => simp [folders, inside?]
  | file name rest ih => exact ih
  | folder name inside rest _ ih =>
    by_cases hn : n = name
    · simp [folders, inside?, hn]
    · simp [folders, inside?, hn, ih]

theorem at?_append (d : Folder) (ms ns : List Text) : d.at? (ms ++ ns) = (d.at? ms).bind (·.at? ns) := by
  induction ms generalizing d with
  | nil => rfl
  | cons m ms ih =>
    simp only [List.cons_append, at?]
    cases d.inside? m with
    | none => rfl
    | some e => exact ih e

theorem at?_concat {d e : Folder} {ns : List Text} (h : d.at? ns = some e) (n : Text) : d.at? (ns ++ [n]) = e.inside? n := by
  rw [at?_append, h]
  simp [at?]

/-- The way down to a folder leads from folder to folder. -/
theorem at?_induction {d e : Folder} {start rest : List Text} {Q : List Text → Prop} (h : d.at? (start ++ rest) = some e)
    (hstart : Q start) (hstep : ∀ ms m post d', start ++ rest = ms ++ m :: post → d.at? ms = some d' → m ∈ d'.folders →
      Q ms → Q (ms ++ [m])) : Q (start ++ rest) := by
  induction rest generalizing start with
  | nil =>
    rw [List.append_nil]
    exact hstart
  | cons m rest ih =>
    have hway := h
    rw [at?_append] at hway
    obtain ⟨d', hd', hrest⟩ := Option.bind_eq_some_iff.mp hway
    obtain ⟨e', he', -⟩ := Option.bind_eq_some_iff.mp hrest
    have hm : Q (start ++ [m]) := hstep start m rest d' rfl hd' (mem_folders.mpr ⟨e', he'⟩) hstart
    rw [List.append_cons] at h hstep ⊢
    exact ih h hm hstep

theorem Valid.inside {d e : Folder} (h : d.Valid) {n : Text} (he : d.inside? n = some e) : IsEntryName n ∧ e.Valid := by
  induction d with
  | empty => cases he
  | file name rest ih => exact ih h.2.2 he
  | folder name inside rest _ ih =>
    simp only [inside?] at he
    split at he
    · obtain rfl := Option.some.inj he
      exact ⟨‹n = name› ▸ h.1, h.2.2.1⟩
    · exact ih h.2.2.2 he

theorem Valid.at {d e : Folder} (h : d.Valid) {ns : List Text} (he : d.at? ns = some e) :
    (∀ n ∈ ns, IsEntryName n) ∧ e.Valid := by
  induction ns generalizing d with
  | nil => exact ⟨by simp, Option.some.inj he ▸ h⟩
  | cons n ns ih =>
    obtain ⟨e', he', he⟩ := Option.bind_eq_some_iff.mp he
    obtain ⟨hn, hv⟩ := h.inside he'
    obtain ⟨hns, hv⟩ := ih hv he
    exact ⟨List.forall_mem_cons.mpr ⟨hn, hns⟩, hv⟩

theorem Valid.files {d : Folder} (h : d.Valid) : d.files.Nodup ∧ ∀ n ∈ d.files, IsEntryName n := by
  induction d with
  | empty => exact ⟨List.nodup_nil, by simp [Folder.files]⟩
  | file name rest ih =>
    obtain ⟨hnd, hns⟩ := ih h.2.2
    exact ⟨List.nodup_cons.mpr ⟨h.2.1, hnd⟩, List.forall_mem_cons.mpr ⟨h.1, hns⟩⟩
  | folder name inside rest _ ih => exact ih h.2.2.2

theorem Plain.inside {d e : Folder} (h : d.Plain) {n : Text} (he : d.inside? n = some e) : IsPlain n ∧ e.Plain := by
  induction d with
  | empty => cases he
  | file name rest ih => exact ih h.2 he
  | folder name inside rest _ ih =>
    simp only [inside?] at he
    split at he
    · obtain rfl := Option.some.inj he
      exact ⟨‹n = name› ▸ h.1, h.2.1⟩
    · exact ih h.2.2 he

theorem Plain.at {d e : Folder} (h : d.Plain) {ns : List Text} (he : d.at? ns = some e) : (∀ n ∈ ns, IsPlain n) ∧ e.Plain := by
  induction ns generalizing d with
  | nil => exact ⟨by simp, Option.some.inj he ▸ h⟩
  | cons n ns ih =>
    obtain ⟨e', he', he⟩ := Option.bind_eq_some_iff.mp he
    obtain ⟨hn, hplain⟩ := h.inside he'
    obtain ⟨hns, hplain⟩ := ih hplain he
    exact ⟨List.forall_mem_cons.mpr ⟨hn, hns⟩, hplain⟩

theorem Plain.names {d : Folder} (h : d.Plain) : (∀ n ∈ d.files, IsPlain n) ∧ ∀ n ∈ d.folders, IsPlain n := by
  induction d with
  | empty => exact ⟨by simp [Folder.files], by simp [Folder.folders]⟩
  | file name rest ih => exact ⟨List.forall_mem_cons.mpr ⟨h.1, (ih h.2).1⟩, (ih h.2).2⟩
  | folder name inside rest _ ih => exact ⟨(ih h.2.2).1, List.forall_mem_cons.mpr ⟨h.1, (ih h.2.2).2⟩⟩

theorem entries_tree {root : Folder} {ns : List Text} (h : ∀ n ∈ ns, IsName n) :
    root.tree.entries (absolute ns) = ((root.at? ns).map fun d => (d.files, d.folders)).getD ([], []) := by
  simp only [tree, names_absolute h]

/-! ## Places -/

/-- A folder that is found is this one or stands at one of the places. -/
theorem mem_folderPlaces_of_at? {d e : Folder} {p : List Text} (hp : p ≠ []) (h : d.at? p = some e) :
    p ∈ d.folderPlaces := by
  obtain ⟨n, ns, rfl⟩ := List.exists_cons_of_ne_nil hp
  clear hp
  induction d generalizing n ns with
  | empty => cases h
  | file name rest ih => exact ih n ns h
  | folder name inside rest ih ih' =>
    simp only [folderPlaces, List.mem_cons, List.mem_append, List.mem_map]
    by_cases hn : n = name
    · have h : inside.at? ns = some e := by simpa [at?, inside?, hn] using h
      cases ns with
      | nil => exact Or.inl (by rw [hn])
      | cons m ms => exact Or.inr (Or.inl ⟨m :: ms, ih m ms h, by rw [hn]⟩)
    · exact Or.inr (Or.inr (ih' n ns (by simpa [at?, inside?, hn] using h)))

theorem exists_at?_of_mem_filePlaces {d : Folder} (hd : d.Valid) {p : List Text} (h : p ∈ d.filePlaces) :
    ∃ ns n e, p = ns ++ [n] ∧ d.at? ns = some e ∧ n ∈ e.files := by
  induction d generalizing p with
  | empty => cases h
  | file name rest ih =>
    rcases List.mem_cons.mp h with rfl | h
    · exact ⟨[], name, _, rfl, rfl, List.mem_cons_self⟩
    · obtain ⟨ns, n, e, rfl, he, hn⟩ := ih hd.2.2 h
      cases ns with
      | nil => exact ⟨[], n, _, rfl, rfl, List.mem_cons_of_mem _ (Option.some.inj he ▸ hn)⟩
      | cons m ms => exact ⟨m :: ms, n, e, rfl, he, hn⟩
  | folder name inside rest ih ih' =>
    rcases List.mem_append.mp h with h | h
    · obtain ⟨q, hq, rfl⟩ := List.mem_map.mp h
      obtain ⟨ns, n, e, rfl, he, hn⟩ := ih hd.2.2.1 hq
      exact ⟨name :: ns, n, e, rfl, by simpa [at?, inside?] using he, hn⟩
    · obtain ⟨ns, n, e, rfl, he, hn⟩ := ih' hd.2.2.2 h
      cases ns with
      | nil => exact ⟨[], n, _, rfl, rfl, Option.some.inj he ▸ hn⟩
      | cons m ms =>
        -- another folder of that name would hide the one found
        obtain ⟨e', he', -⟩ := Option.bind_eq_some_iff.mp he
        have hm : m ≠ name := by
          rintro rfl
          exact hd.2.1 (mem_folders.mpr ⟨e', he'⟩)
        exact ⟨m :: ms, n, e, rfl, by simpa [at?, inside?, hm] using he, hn⟩

theorem mem_filePlaces_of_at? {d e : Folder} {ns : List Text} {n : Text} (he : d.at? ns = some e) (hn : n ∈ e.files) :
    ns ++ [n] ∈ d.filePlaces := by
  induction d generalizing ns e with
  | empty =>
    cases ns with
    | nil => obtain rfl := Option.some.inj he; cases hn
    | cons m ms => cases he
  | file name rest ih =>
    cases ns with
    | nil =>
      obtain rfl := Option.some.inj he
      rcases List.mem_cons.mp hn with rfl | hn
      · exact List.mem_cons_self
      · exact List.mem_cons_of_mem _ (ih (show rest.at? [] = some rest from rfl) hn)
    | cons m ms => exact List.mem_cons_of_mem _ (ih he hn)
  | folder name inside rest ih ih' =>
    cases ns with
    | nil =>
      obtain rfl := Option.some.inj he
      exact List.mem_append_right _ (ih' (show rest.at? [] = some rest from rfl) hn)
    | cons m ms =>
      by_cases hm : m = name
      · subst hm
        exact List.mem_append_left _ (List.mem_map_of_mem (ih (by simpa [at?, inside?] using he) hn))
      · exact List.mem_append_right _ (ih' (show rest.at? (m :: ms) = some e by simpa [at?, inside?, hm] using he) hn)

/-- The places of files: a folder that is found and a file in it. -/
theorem mem_filePlaces {d : Folder} (hd : d.Valid) {p : List Text} :
    p ∈ d.filePlaces ↔ ∃ ns n e, p = ns ++ [n] ∧ d.at? ns = some e ∧ n ∈ e.files := by
  constructor
  · exact exists_at?_of_mem_filePlaces hd
  · rintro ⟨ns, n, e, rfl, he, hn⟩
    exact mem_filePlaces_of_at? he hn

end Folder

end TsProject.Glob
