import Mathlib.Data.List.Infix
import MelodiaStore.Effects

/-!
# A File System

The library layer for programs that keep data in files. A file system is a map from paths to
contents, with the directories that were made. The module names no particular program:

* `join` puts a name under a path, and `IsUnder` says which paths `removeAll` removes; where the
  names have no separator, a path determines its names (`append_slash_inj`,
  `eq_of_isUnder_append`);
* `decimal` writes a number in decimal digits, which are no separators (`slash_notMem_decimal`)
  and determine it (`decimal_injective`);
* `IsEmptyDir` says which directories `removeDir` can remove (`exists_removeDir_iff`), and
  `mem_paths_removeAll` what a `removeAll` leaves.
-/

namespace MelodiaStore

/-! ### Paths -/

variable {a b x : List Char}

/-- A path, as the string that the code uses. -/
abbrev Path := List Char

/-- `filepath.Join` of a clean path and a name. -/
def join (dir : Path) (name : List Char) : Path := dir ++ '/' :: name

/-- A path is another one, or lies under it. -/
def IsUnder (dir path : Path) : Prop := path = dir ∨ dir ++ ['/'] <+: path

instance instDecidableIsUnder (dir path : Path) : Decidable (IsUnder dir path) :=
  inferInstanceAs (Decidable (path = dir ∨ dir ++ ['/'] <+: path))

/-- Two strings agree up to their first separators, and behind them. -/
theorem append_slash_inj {y : List Char} (ha : '/' ∉ a) (hb : '/' ∉ b)
    (h : a ++ '/' :: x = b ++ '/' :: y) : a = b ∧ x = y := by
  induction a generalizing b with
  | nil =>
    cases b with
    | nil => exact ⟨rfl, (List.cons.inj h).2⟩
    | cons c b => exact absurd ((List.cons.inj h).1 ▸ List.mem_cons_self) hb
  | cons c a ih =>
    cases b with
    | nil => exact absurd ((List.cons.inj h).1 ▸ List.mem_cons_self) ha
    | cons d b =>
      obtain ⟨rfl, hrest⟩ := List.cons.inj h
      obtain ⟨rfl, hxy⟩ := ih (fun hm => ha (List.mem_cons_of_mem c hm))
        (fun hm => hb (List.mem_cons_of_mem c hm)) hrest
      exact ⟨rfl, hxy⟩

/-- A name under a path, and a path of names under the same one. -/
theorem isUnder_join_iff {dir a b : Path} : IsUnder (join dir a) (join dir b) ↔ IsUnder a b := by
  rw [IsUnder, IsUnder, join, join, List.append_assoc, List.cons_append,
    List.prefix_append_right_inj, List.cons_prefix_cons, List.append_cancel_left_eq,
    List.cons.injEq]
  simp only [true_and]

/-- What lies under a name in a directory lies in the directory. -/
theorem exists_eq_join {dir a path : Path} (h : IsUnder (join dir a) path) :
    ∃ b, path = join dir b := by
  rcases h with rfl | ⟨t, rfl⟩
  · exact ⟨a, rfl⟩
  · refine ⟨a ++ '/' :: t, ?_⟩
    simp [join]

/-- The first name of a path is the one that it lies under. -/
theorem eq_of_isUnder_append (ha : '/' ∉ a) (hb : '/' ∉ b) (h : IsUnder a (b ++ '/' :: x)) :
    a = b := by
  rcases h with h | ⟨t, h⟩
  · exact absurd (h ▸ List.mem_append_right b List.mem_cons_self) ha
  · rw [List.append_assoc] at h
    exact (append_slash_inj ha hb h).1

/-- A single name lies under itself only. -/
theorem eq_of_isUnder_of_notMem (hb : '/' ∉ b) (h : IsUnder a b) : a = b := by
  rcases h with h | ⟨t, rfl⟩
  · exact h.symm
  · exact absurd (List.mem_append_left t (List.mem_append_right a List.mem_cons_self)) hb

/-! ### Numbers as names -/

/-- `strconv.FormatUint` with base `10`. -/
def decimal (n : ℕ) : List Char := Nat.toDigits 10 n

/-- The digits determine the number. -/
theorem decimal_injective {m n : ℕ} (h : decimal m = decimal n) : m = n := by
  have hm : Nat.ofDigitChars 10 (decimal m) 0 = m := Nat.ofDigitChars_toDigits (by decide) le_rfl
  have hn : Nat.ofDigitChars 10 (decimal n) 0 = n := Nat.ofDigitChars_toDigits (by decide) le_rfl
  rw [← hm, h, hn]

/-- No digit is a separator. -/
theorem slash_notMem_decimal (n : ℕ) : '/' ∉ decimal n := by
  intro hmem
  exact absurd (Nat.isDigit_of_mem_toDigits (by decide) le_rfl hmem) (by decide)

/-! ### Files and directories -/

/-- The files with their contents, and the directories. -/
structure FileSystem (β : Type) where
  files : GoMap Path β
  dirs : List Path

namespace FileSystem

variable {β : Type} {fs fs' : FileSystem β} {path other : Path}

/-- A file system without files. -/
def empty : FileSystem β := ⟨∅, []⟩

/-- The content of a file, if there is one. -/
def readFile (fs : FileSystem β) (path : Path) : Option β := fs.files.lookup path

/-- A file is made, or replaced. -/
def writeFile (fs : FileSystem β) (path : Path) (content : β) : FileSystem β :=
  { fs with files := fs.files.insert path content }

/-- `os.MkdirAll`. -/
def mkdirAll (fs : FileSystem β) (path : Path) : FileSystem β :=
  { fs with dirs := path.inits.filter (IsUnder · path) ++ fs.dirs }

/-- `os.RemoveAll`. -/
def removeAll (fs : FileSystem β) (path : Path) : FileSystem β where
  files := (fs.files.keys.filter (IsUnder path ·)).foldl (fun m k => m.erase k) fs.files
  dirs := fs.dirs.filter (¬IsUnder path ·)

/-- `os.Remove` of a directory, which has to be there and to be empty. -/
def removeDir (fs : FileSystem β) (path : Path) : Option (FileSystem β) :=
  if path ∈ fs.dirs ∧ ∀ other ∈ fs.files.keys ++ fs.dirs, other = path ∨ ¬IsUnder path other then
    some { fs with dirs := fs.dirs.filter (· ≠ path) }
  else none

theorem lookup_foldl_erase {K V : Type} [DecidableEq K] (l : List K) (m : GoMap K V) (k : K) :
    (l.foldl (fun m k => m.erase k) m).lookup k = if k ∈ l then none else m.lookup k := by
  induction l generalizing m with
  | nil => rfl
  | cons j l ih =>
    rw [List.foldl_cons, ih, lookup_erase_ite]
    by_cases hl : k ∈ l
    · rw [if_pos hl, if_pos (List.mem_cons_of_mem j hl)]
    · by_cases hj : k = j
      · rw [if_neg hl, if_pos hj, if_pos (hj ▸ List.mem_cons_self)]
      · rw [if_neg hl, if_neg hj, if_neg]
        rw [List.mem_cons]
        exact not_or.mpr ⟨hj, hl⟩

/-- What can be read after a removal. -/
theorem readFile_removeAll (fs : FileSystem β) (path other : Path) :
    (fs.removeAll path).readFile other =
      if IsUnder path other then none else fs.readFile other := by
  have hmem : other ∈ fs.files.keys.filter (IsUnder path ·) ↔
      other ∈ fs.files ∧ IsUnder path other := by
    rw [List.mem_filter, decide_eq_true_eq, ← AList.mem_keys]
  rw [readFile, removeAll, lookup_foldl_erase]
  split_ifs with hin hunder hunder
  · rfl
  · exact absurd (hmem.mp hin).2 hunder
  · rw [AList.lookup_eq_none]
    exact fun h => hin (hmem.mpr ⟨h, hunder⟩)
  · rfl

theorem readFile_of_removeDir (h : fs.removeDir path = some fs') (other : Path) :
    fs'.readFile other = fs.readFile other := by
  unfold removeDir at h
  split_ifs at h
  cases h
  rfl

/-! ### Which directories can be removed -/

/-- All that there is. -/
def paths (fs : FileSystem β) : List Path := fs.files.keys ++ fs.dirs

/-- A directory that is there, with nothing in it. -/
def IsEmptyDir (fs : FileSystem β) (path : Path) : Prop :=
  path ∈ fs.dirs ∧ ∀ other ∈ fs.paths, IsUnder path other → other = path

/-- Empty directories can be removed. -/
theorem exists_removeDir_iff : (∃ fs', fs.removeDir path = some fs') ↔ fs.IsEmptyDir path := by
  have hcond : (path ∈ fs.dirs ∧
      ∀ other ∈ fs.files.keys ++ fs.dirs, other = path ∨ ¬IsUnder path other) ↔
      fs.IsEmptyDir path := by
    simp only [IsEmptyDir, paths, or_iff_not_imp_right, not_not]
  rw [← hcond]
  constructor
  · rintro ⟨fs', h⟩
    unfold removeDir at h
    split_ifs at h with hempty
    exact hempty
  · intro h
    exact ⟨_, if_pos h⟩

/-- **Removing a directory** does not change whether one that it does not lie in is empty. -/
theorem isEmptyDir_of_removeDir (h : fs.removeDir path = some fs') (hunder : ¬IsUnder other path) :
    fs'.IsEmptyDir other ↔ fs.IsEmptyDir other := by
  have hne : other ≠ path := fun heq => hunder (.inl heq.symm)
  unfold removeDir at h
  split_ifs at h
  obtain rfl := Option.some.inj h
  simp only [IsEmptyDir, paths, List.mem_append, List.mem_filter, decide_eq_true_eq]
  constructor
  · rintro ⟨hdir, hempty⟩
    refine ⟨hdir.1, fun p hp hin => hempty p ?_ hin⟩
    exact hp.imp id fun hp => ⟨hp, fun heq => hunder (heq ▸ hin)⟩
  · rintro ⟨hdir, hempty⟩
    exact ⟨⟨hdir, hne⟩, fun p hp => hempty p (hp.imp id And.left)⟩

theorem mem_dirs_removeAll :
    other ∈ (fs.removeAll path).dirs ↔ other ∈ fs.dirs ∧ ¬IsUnder path other := by
  rw [removeAll, List.mem_filter, decide_eq_true_eq]

theorem mem_paths_removeAll :
    other ∈ (fs.removeAll path).paths ↔ other ∈ fs.paths ∧ ¬IsUnder path other := by
  have hfiles : other ∈ (fs.removeAll path).files.keys ↔
      other ∈ fs.files.keys ∧ ¬IsUnder path other := by
    have hread := readFile_removeAll fs path other
    rw [readFile, readFile] at hread
    rw [← AList.mem_keys, ← AList.mem_keys, ← AList.lookup_isSome, ← AList.lookup_isSome, hread]
    split_ifs with hunder
    · simp [hunder]
    · simp [hunder]
  rw [paths, paths, List.mem_append, List.mem_append, hfiles, mem_dirs_removeAll, or_and_right]

end FileSystem

end MelodiaStore
