import Mathlib.Algebra.Order.BigOperators.Group.List
import Remembra.Sqlite.LegacyMeaning
import Remembra.Store.Files

/-! The migration of a tree of memory files. `_walkDir` lists all that is below a directory by base name
    and then walks the directories among it once more, as if they all lay in the directory itself; one
    that does not makes it throw, and `walkMdFiles` goes on with the next top directory. The order of a
    listing is the platform's, so a law of the migration is asked for every order. Afterwards the three
    directories are moved away whatever has been found, which changes no row and no count. -/

namespace Remembra.Sqlite.Legacy
open Store (Path JsNum Host isMd)

/-! ### The tree -/

inductive Kind where
  | dir
  | file (text : FileText)

def Kind.isDir : Kind → Bool
  | .dir => true
  | .file _ => false

def Kind.text : Kind → Option FileText
  | .dir => none
  | .file text => some text

/-- A finite tree of files: each path has one entry, and lies in a directory or at the root. -/
structure Tree where
  entries : List (Path × Kind)
  nodup : (entries.map Prod.fst).Nodup
  closed : ∀ dir name kind, (dir ++ [name], kind) ∈ entries → dir = [] ∨ (dir, Kind.dir) ∈ entries

/-- An entry of a listing. -/
structure Dirent where
  name : String
  isDirectory : Bool
  deriving DecidableEq

def baseName (p : Path) : String := p.getLast?.getD ""

namespace Tree
variable (t : Tree)

def isDir (p : Path) : Bool := t.entries.any fun e => e.1 = p && e.2.isDir

def read (p : Path) : Option FileText := (t.entries.find? fun e => e.1 = p).bind fun e => e.2.text

/-- The entries below a directory, at any depth. -/
def below (dir : Path) : List (Path × Kind) := t.entries.filter fun e => Store.below dir e.1

/-- `readdir` with `recursive` and `withFileTypes` -/
def listing (dir : Path) : List Dirent := (t.below dir).map fun e => ⟨baseName e.1, e.2.isDir⟩

def isMdFile (e : Path × Kind) : Bool := !e.2.isDir && isMd (baseName e.1)

/-- The memory files below a directory. -/
def mdBelow (dir : Path) : List Path := ((t.below dir).filter isMdFile).map Prod.fst

end Tree

/-- The order in which `readdir` lists a directory. -/
abbrev Order := Path → List Dirent → List Dirent

/-- Every entry is listed once. -/
def Lists (order : Order) : Prop := ∀ p l, (order p l).Perm l

/-! ### The walk -/

/-- The loop of `_walkDir`: the files that are found, and whether no visit has thrown. -/
def walkEntries (visit : Path → List Path × Bool) (dir : Path) : List Dirent → List Path × Bool
  | [] => ([], true)
  | e :: es =>
    if e.isDirectory then
      if (visit (dir ++ [e.name])).2 then
        ((visit (dir ++ [e.name])).1 ++ (walkEntries visit dir es).1, (walkEntries visit dir es).2)
      else ((visit (dir ++ [e.name])).1, false)
    else if isMd e.name then
      ((dir ++ [e.name]) :: (walkEntries visit dir es).1, (walkEntries visit dir es).2)
    else walkEntries visit dir es

/-- `_walkDir`; each visit is of a directory with less below it. -/
def walkDir (t : Tree) (order : Order) : ℕ → Path → List Path × Bool
  | 0, _ => ([], false)
  | fuel + 1, dir =>
    if t.isDir dir then walkEntries (walkDir t order fuel) dir (order dir (t.listing dir))
    else ([], false)

def legacyDirs : List String := ["global", "scopes", "archived"]

/-- `walkMdFiles`; what a walk has found before it throws stays. -/
def walkMdFiles (t : Tree) (order : Order) : List Path :=
  legacyDirs.flatMap fun dir => (walkDir t order (t.entries.length + 1) [dir]).1

/-! ### The migration -/

abbrev Rows := Table Migrated.id

/-- `insertRow`: no `NaN` in the column `version`, and no second row with the id. -/
def insertMigrated (rows : Rows) (l : Migrated) : Option Rows :=
  if l.version = .nan then none else rows.insert l

/-- The rows, the files that have been imported and the number of those that were skipped. -/
structure Outcome where
  rows : Rows
  imported : List Path := []
  skipped : ℕ := 0

section Migrate
variable (h : Host) (parseFloat : String → JsNum) (now : ℤ) (t : Tree)

/-- The record that `parseLegacyFile` makes of a path, if there is a file that it takes. -/
def accepted (file : Path) : Option Migrated :=
  (t.read file).bind (parseLegacyFile h parseFloat now file)

def migrateFile (o : Outcome) (file : Path) : Outcome :=
  match (accepted h parseFloat now t file).bind (insertMigrated o.rows) with
  | some rows => { o with rows := rows, imported := o.imported ++ [file] }
  | none => { o with skipped := o.skipped + 1 }

/-- `maybeMigrate`, up to the moving of the three directories. -/
def maybeMigrate (order : Order) (rows : Rows) : Outcome :=
  if legacyDirs.any fun dir => t.entries.any fun e => e.1 = [dir] then
    (walkMdFiles t order).foldl (migrateFile h parseFloat now t) { rows := rows }
  else { rows := rows }

/-- The memory files of the tree. -/
def Tree.mdFiles : List Path := legacyDirs.flatMap fun dir => t.mdBelow [dir]

/-- Each file that `parseLegacyFile` takes has been imported once, and the counts add up. -/
structure Lossless (o : Outcome) : Prop where
  imported : ∀ file ∈ t.mdFiles, ∀ l, accepted h parseFloat now t file = some l →
    o.imported.count file = 1 ∧ o.rows.get l.id = some l
  counts : o.imported.length + o.skipped = t.mdFiles.length

end Migrate

/-! ### One listing -/

/-- The entry is a memory file by its name. -/
def Dirent.isMd (e : Dirent) : Bool := !e.isDirectory && Store.isMd e.name

section Entries
variable {visit : Path → List Path × Bool} {dir : Path} {es ds : List Dirent}

theorem walkEntries_ok :
    (walkEntries visit dir es).2 = true ↔
      ∀ e ∈ es, e.isDirectory = true → (visit (dir ++ [e.name])).2 = true := by
  induction es with
  | nil => simp [walkEntries]
  | cons e es ih =>
    rw [walkEntries, List.forall_mem_cons, ← ih]
    by_cases hdir : e.isDirectory = true
    · by_cases hok : (visit (dir ++ [e.name])).2 = true <;> simp [hdir, hok]
    · by_cases hmd : isMd e.name = true <;> simp [hdir, hmd]

/-- How many files an entry leads to where no visit throws. -/
def weight (visit : Path → List Path × Bool) (dir : Path) (e : Dirent) : ℕ :=
  if e.isDirectory then (visit (dir ++ [e.name])).1.length else if isMd e.name then 1 else 0

theorem length_walkEntries (hok : (walkEntries visit dir es).2 = true) :
    (walkEntries visit dir es).1.length = (es.map (weight visit dir)).sum := by
  induction es with
  | nil => rfl
  | cons e es ih =>
    rw [walkEntries_ok, List.forall_mem_cons] at hok
    have ih := ih (walkEntries_ok.mpr hok.2)
    rw [walkEntries, List.map_cons, List.sum_cons, ← ih, weight]
    by_cases hdir : e.isDirectory = true
    · simp [hdir, hok.1 hdir]
    · by_cases hmd : isMd e.name = true <;> simp [hdir, hmd, Nat.add_comm]

/-- The files that the entries name, where no directory among them leads to any. -/
theorem walkEntries_flat (hvisit : ∀ e ∈ es, e.isDirectory = true →
      visit (dir ++ [e.name]) = ([], true)) :
    (walkEntries visit dir es).1 = (es.filter Dirent.isMd).map fun e => dir ++ [e.name] := by
  induction es with
  | nil => rfl
  | cons e es ih =>
    rw [List.forall_mem_cons] at hvisit
    have ih := ih hvisit.2
    rw [walkEntries]
    by_cases hdir : e.isDirectory = true
    · simp [hdir, hvisit.1 hdir, Dirent.isMd, ih]
    · by_cases hmd : isMd e.name = true <;> simp [hdir, hmd, Dirent.isMd, ih]

/-- Entries that name no file lead to none. -/
theorem walkEntries_nil (hnone : ∀ e ∈ es, e.isMd = false)
    (hvisit : ∀ e ∈ es, e.isDirectory = true → (visit (dir ++ [e.name])).1 = []) :
    (walkEntries visit dir es).1 = [] := by
  induction es with
  | nil => rfl
  | cons e es ih =>
    rw [List.forall_mem_cons] at hvisit hnone
    have ih := ih hnone.2 hvisit.2
    rw [walkEntries]
    by_cases hdir : e.isDirectory = true
    · by_cases hok : (visit (dir ++ [e.name])).2 = true <;> simp [hdir, hok, hvisit.1 hdir, ih]
    · have hmd : isMd e.name = false := by simpa [Dirent.isMd, hdir] using hnone.1
      simp [hdir, hmd, ih]

/-- Files that are listed before the directories are all found. -/
theorem length_walkEntries_append (hfiles : ∀ e ∈ es, e.isDirectory = false) :
    (es.filter Dirent.isMd).length ≤ (walkEntries visit dir (es ++ ds)).1.length := by
  induction es with
  | nil => exact Nat.zero_le _
  | cons e es ih =>
    rw [List.forall_mem_cons] at hfiles
    have ih := ih hfiles.2
    rw [List.cons_append, walkEntries]
    by_cases hmd : isMd e.name = true
    · simpa [hfiles.1, hmd, Dirent.isMd] using ih
    · simpa [hfiles.1, hmd, Dirent.isMd] using ih

end Entries

/-! ### What is below a directory -/

section Below
variable {t : Tree} {dir : Path} {name : String} {e : Path × Kind}

theorem mem_below : e ∈ t.below dir ↔ e ∈ t.entries ∧ dir <+: e.1 ∧ dir.length < e.1.length := by
  simp [Tree.below, Store.below]

theorem isDir_iff {p : Path} : t.isDir p = true ↔ (p, Kind.dir) ∈ t.entries := by
  simp only [Tree.isDir, List.any_eq_true, Bool.and_eq_true, decide_eq_true_eq]
  constructor
  · rintro ⟨⟨q, k⟩, he, rfl, hk⟩
    cases k with
    | dir => exact he
    | file text => cases hk
  · exact fun he => ⟨_, he, rfl, rfl⟩

/-- Below a subdirectory there is less. -/
theorem length_below_child (hsub : t.isDir (dir ++ [name]) = true) :
    (t.below (dir ++ [name])).length < (t.below dir).length := by
  have hsame : t.below (dir ++ [name]) =
      (t.below dir).filter fun e => Store.below (dir ++ [name]) e.1 := by
    rw [Tree.below, Tree.below, List.filter_filter]
    refine List.filter_congr fun e _ => ?_
    rw [Bool.eq_iff_iff, Bool.and_eq_true]
    simp only [Store.below, Bool.and_eq_true, List.isPrefixOf_iff_prefix, decide_eq_true_iff]
    refine ⟨fun h => ⟨h, (List.prefix_append dir [name]).trans h.1, ?_⟩, fun h => h.1⟩
    have := h.2
    rw [List.length_append] at this
    omega
  rw [hsame, List.length_filter_lt_length_iff_exists]
  refine ⟨(dir ++ [name], .dir), mem_below.mpr ⟨isDir_iff.mp hsub, List.prefix_append .., ?_⟩, ?_⟩
  · simp
  · simp [Store.below]

theorem mem_listing {d : Dirent} :
    d ∈ t.listing dir ↔ ∃ e ∈ t.below dir, d = ⟨baseName e.1, e.2.isDir⟩ := by
  simp [Tree.listing, eq_comm]

theorem mem_mdBelow {q : Path} :
    q ∈ t.mdBelow dir ↔ ∃ e ∈ t.below dir, Tree.isMdFile e = true ∧ e.1 = q := by
  simp only [Tree.mdBelow, List.mem_map, List.mem_filter, and_assoc]

/-- The memory files below a directory, by their listing. -/
theorem filter_listing :
    (t.listing dir).filter Dirent.isMd =
      ((t.below dir).filter Tree.isMdFile).map fun e => ⟨baseName e.1, e.2.isDir⟩ := by
  rw [Tree.listing, List.filter_map]
  rfl

theorem length_mdBelow : ((t.listing dir).filter Dirent.isMd).length = (t.mdBelow dir).length := by
  rw [filter_listing, Tree.mdBelow, List.length_map, List.length_map]

theorem isDir_above {p q : Path} {kind : Kind} (he : (p ++ q, kind) ∈ t.entries) (hp : p ≠ [])
    (hq : q ≠ []) : t.isDir p = true := by
  induction q using List.reverseRecOn generalizing kind with
  | nil => exact absurd rfl hq
  | append_singleton q name ih =>
    rw [← List.append_assoc] at he
    rcases t.closed _ _ _ he with hnil | hdir
    · exact absurd (List.append_eq_nil_iff.mp hnil).1 hp
    · cases q with
      | nil => exact isDir_iff.mpr (List.append_nil p ▸ hdir)
      | cons x q => exact ih hdir (List.cons_ne_nil x q)

/-- What lies deeper below a directory lies below a subdirectory. -/
theorem exists_child (he : e ∈ t.below dir) (hdeep : e.1 ≠ dir ++ [baseName e.1]) :
    ∃ name, t.isDir (dir ++ [name]) = true ∧ e ∈ t.below (dir ++ [name]) := by
  obtain ⟨hmem, ⟨rest, hrest⟩, hlen⟩ := mem_below.mp he
  cases rest with
  | nil =>
    rw [← hrest, List.append_nil] at hlen
    omega
  | cons name rest =>
    have hpath : (dir ++ [name]) ++ rest = e.1 := by rw [← hrest, List.append_assoc]; rfl
    have hne : rest ≠ [] := by
      rintro rfl
      rw [List.append_nil] at hpath
      apply hdeep
      rw [← hpath, baseName, List.getLast?_concat]
      rfl
    have hin : ((dir ++ [name]) ++ rest, e.2) ∈ t.entries := by
      rw [hpath]
      exact hmem
    refine ⟨name, isDir_above hin (by simp) hne, mem_below.mpr ⟨hmem, ⟨rest, hpath⟩, ?_⟩⟩
    rw [← hpath, @List.length_append _ (dir ++ [name])]
    have := List.length_pos_iff.mpr hne
    omega

end Below

/-! ### One directory -/

/-- The walk of the directory throws nowhere: each directory below it has the name of a subdirectory,
    and that can be walked. -/
inductive Tree.Walks (t : Tree) : Path → Prop
  | mk (dir : Path) : t.isDir dir = true →
      (∀ e ∈ t.below dir, e.2.isDir = true → t.Walks (dir ++ [baseName e.1])) → t.Walks dir

/-- All memory files below the directory lie in it. -/
def Tree.Flat (t : Tree) (dir : Path) : Prop := ∀ q ∈ t.mdBelow dir, q = dir ++ [baseName q]

section Walk
variable {t : Tree} {order : Order} {fuel : ℕ} {dir : Path}

theorem walks_iff : t.Walks dir ↔ t.isDir dir = true ∧
    ∀ e ∈ t.below dir, e.2.isDir = true → t.Walks (dir ++ [baseName e.1]) := by
  constructor
  · intro h
    cases h with
    | mk _ hdir hall => exact ⟨hdir, hall⟩
  · exact fun h => .mk dir h.1 h.2

theorem mem_order (horder : Lists order) {d : Dirent} :
    d ∈ order dir (t.listing dir) ↔ ∃ e ∈ t.below dir, d = ⟨baseName e.1, e.2.isDir⟩ :=
  (horder dir _).mem_iff.trans mem_listing

theorem length_filter_order (horder : Lists order) :
    ((order dir (t.listing dir)).filter Dirent.isMd).length = (t.mdBelow dir).length := by
  rw [((horder dir _).filter _).length_eq, length_mdBelow]

theorem walkDir_succ (hdir : t.isDir dir = true) :
    walkDir t order (fuel + 1) dir =
      walkEntries (walkDir t order fuel) dir (order dir (t.listing dir)) := by
  rw [walkDir, if_pos hdir]

theorem walkDir_of_not_isDir (hdir : t.isDir dir = false) : walkDir t order fuel dir = ([], false) := by
  cases fuel with
  | zero => rfl
  | succ fuel => rw [walkDir, if_neg (by simp [hdir])]

/-- The walk throws exactly where it meets a name that is no subdirectory's. -/
theorem walkDir_ok (horder : Lists order) (hfuel : (t.below dir).length < fuel) :
    (walkDir t order fuel dir).2 = true ↔ t.Walks dir := by
  induction fuel generalizing dir with
  | zero => omega
  | succ fuel ih =>
    by_cases hdir : t.isDir dir = true
    · rw [walkDir_succ hdir, walkEntries_ok]
      have hchild : ∀ name, (walkDir t order fuel (dir ++ [name])).2 = true ↔
          t.Walks (dir ++ [name]) := by
        intro name
        by_cases hsub : t.isDir (dir ++ [name]) = true
        · exact ih (by have := length_below_child hsub; omega)
        · rw [walkDir_of_not_isDir (by simpa using hsub)]
          exact iff_of_false (by simp) fun h => hsub (walks_iff.mp h).1
      rw [walks_iff]
      constructor
      · intro hall
        refine ⟨hdir, fun e he hed => (hchild _).mp ?_⟩
        exact hall ⟨baseName e.1, e.2.isDir⟩ ((mem_order horder).mpr ⟨e, he, rfl⟩) hed
      · rintro ⟨-, hall⟩ d hd hdd
        obtain ⟨e, he, rfl⟩ := (mem_order horder).mp hd
        exact (hchild _).mpr (hall e he hdd)
    · rw [walkDir_of_not_isDir (by simpa using hdir)]
      exact iff_of_false (by simp) fun h => hdir (walks_iff.mp h).1

/-- Nothing is found where there is no memory file. -/
theorem walkDir_nil (horder : Lists order) (hnone : t.mdBelow dir = []) :
    (walkDir t order fuel dir).1 = [] := by
  induction fuel generalizing dir with
  | zero => rfl
  | succ fuel ih =>
    by_cases hdir : t.isDir dir = true
    · rw [walkDir_succ hdir]
      have hmd : ∀ e ∈ t.below dir, Tree.isMdFile e = false := by
        intro e he
        by_contra hmd
        have : e.1 ∈ t.mdBelow dir := mem_mdBelow.mpr ⟨e, he, by simpa using hmd, rfl⟩
        rw [hnone] at this
        cases this
      refine walkEntries_nil ?_ ?_
      · intro d hd
        obtain ⟨e, he, rfl⟩ := (mem_order horder).mp hd
        exact hmd e he
      · intro d _ _
        refine ih ?_
        rw [List.eq_nil_iff_forall_not_mem]
        intro q hq
        obtain ⟨e, he, hemd, -⟩ := mem_mdBelow.mp hq
        obtain ⟨hmem, hprefix, hlen⟩ := mem_below.mp he
        have hbelow : e ∈ t.below dir := mem_below.mpr ⟨hmem,
          (List.prefix_append dir _).trans hprefix, by rw [List.length_append] at hlen; omega⟩
        rw [hmd e hbelow] at hemd
        cases hemd
    · rw [walkDir_of_not_isDir (by simpa using hdir)]

/-- The files that the entries name themselves, of what a walk counts. -/
theorem length_filter_le_sum (visit : Path → List Path × Bool) (es : List Dirent) :
    (es.filter Dirent.isMd).length ≤ (es.map (weight visit dir)).sum := by
  induction es with
  | nil => rfl
  | cons d es ih =>
    rw [List.map_cons, List.sum_cons]
    by_cases hmd : d.isMd = true
    · have hweight : weight visit dir d = 1 := by
        simp only [Dirent.isMd, Bool.and_eq_true, Bool.not_eq_true'] at hmd
        simp [weight, hmd.1, hmd.2]
      rw [List.filter_cons_of_pos hmd, List.length_cons, hweight]
      omega
    · rw [List.filter_cons_of_neg hmd]
      omega

/-- A directory among the entries adds what its own walk finds. -/
theorem length_filter_add_le_sum (visit : Path → List Path × Bool) {es : List Dirent} {d : Dirent}
    (hd : d ∈ es) (hdd : d.isDirectory = true) :
    (es.filter Dirent.isMd).length + (visit (dir ++ [d.name])).1.length ≤
      (es.map (weight visit dir)).sum := by
  obtain ⟨xs, ys, rfl⟩ := List.append_of_mem hd
  have hx := @length_filter_le_sum dir visit xs
  have hy := @length_filter_le_sum dir visit ys
  have hmd : d.isMd = false := by simp [Dirent.isMd, hdd]
  have hweight : weight visit dir d = (visit (dir ++ [d.name])).1.length := by simp [weight, hdd]
  rw [List.filter_append, List.filter_cons_of_neg (by simp [hmd]), List.length_append,
    List.map_append, List.map_cons, List.sum_append, List.sum_cons, hweight]
  omega

theorem length_walkDir (horder : Lists order) (hwalks : t.Walks dir)
    (hfuel : (t.below dir).length < fuel + 1) :
    (walkDir t order (fuel + 1) dir).1.length =
      ((order dir (t.listing dir)).map (weight (walkDir t order fuel) dir)).sum := by
  have hok := (walkDir_ok horder hfuel).mpr hwalks
  rw [walkDir_succ (walks_iff.mp hwalks).1] at hok ⊢
  exact length_walkEntries hok

/-- A walk that does not throw finds each memory file at least once. -/
theorem le_length_walkDir (horder : Lists order) (hwalks : t.Walks dir)
    (hfuel : (t.below dir).length < fuel) :
    (t.mdBelow dir).length ≤ (walkDir t order fuel dir).1.length := by
  cases fuel with
  | zero => omega
  | succ fuel =>
    rw [length_walkDir horder hwalks hfuel, ← length_filter_order horder]
    exact length_filter_le_sum _ _

/-- It finds more than there is where a memory file lies deeper. -/
theorem lt_length_walkDir (horder : Lists order) (hwalks : t.Walks dir)
    (hfuel : (t.below dir).length < fuel) (hdeep : ¬ t.Flat dir) :
    (t.mdBelow dir).length < (walkDir t order fuel dir).1.length := by
  cases fuel with
  | zero => omega
  | succ fuel =>
    simp only [Tree.Flat, not_forall] at hdeep
    obtain ⟨q, hq, hdeep⟩ := hdeep
    obtain ⟨e, he, hemd, rfl⟩ := mem_mdBelow.mp hq
    obtain ⟨name, hsub, hein⟩ := exists_child he hdeep
    have hlen := length_below_child hsub
    have hentry : (dir ++ [name], Kind.dir) ∈ t.below dir :=
      mem_below.mpr ⟨isDir_iff.mp hsub, List.prefix_append .., by simp⟩
    have hbase : baseName (dir ++ [name]) = name := by
      rw [baseName, List.getLast?_concat]
      rfl
    have hchild : t.Walks (dir ++ [name]) := by
      have := (walks_iff.mp hwalks).2 _ hentry rfl
      rwa [hbase] at this
    have hfound : (t.mdBelow (dir ++ [name])).length ≤
        (walkDir t order fuel (dir ++ [name])).1.length := le_length_walkDir horder hchild (by omega)
    have hpos : 0 < (t.mdBelow (dir ++ [name])).length :=
      List.length_pos_of_mem (mem_mdBelow.mpr ⟨e, hein, hemd, rfl⟩)
    have hd : (⟨name, true⟩ : Dirent) ∈ order dir (t.listing dir) :=
      (mem_order horder).mpr ⟨_, hentry, by rw [hbase]; rfl⟩
    have hsum := @length_filter_add_le_sum dir (walkDir t order fuel) _ _ hd rfl
    dsimp only at hsum
    rw [length_walkDir horder hwalks hfuel, ← length_filter_order horder]
    omega

/-- Where no memory file lies deeper, a walk that does not throw finds each once. -/
theorem walkDir_flat (horder : Lists order) (hwalks : t.Walks dir)
    (hfuel : (t.below dir).length < fuel) (hflat : t.Flat dir) :
    ((walkDir t order fuel dir).1).Perm (t.mdBelow dir) := by
  cases fuel with
  | zero => omega
  | succ fuel =>
    obtain ⟨hdir, hall⟩ := walks_iff.mp hwalks
    have hpaths : (((t.listing dir).filter Dirent.isMd).map fun d => dir ++ [d.name]) =
        t.mdBelow dir := by
      rw [filter_listing, List.map_map, Tree.mdBelow]
      refine List.map_congr_left fun e he => ?_
      obtain ⟨hbelow, hmd⟩ := List.mem_filter.mp he
      exact (hflat e.1 (mem_mdBelow.mpr ⟨e, hbelow, hmd, rfl⟩)).symm
    rw [walkDir_succ hdir, walkEntries_flat, ← hpaths]
    · exact ((horder dir _).filter _).map _
    · intro d hd hdd
      obtain ⟨e, he, rfl⟩ := (mem_order horder).mp hd
      have hchild := hall e he hdd
      have hlen := length_below_child (walks_iff.mp hchild).1
      change walkDir t order fuel (dir ++ [baseName e.1]) = _
      refine Prod.ext (walkDir_nil horder ?_) ((walkDir_ok horder (by omega)).mpr hchild)
      -- a file below the subdirectory would lie deeper
      rw [List.eq_nil_iff_forall_not_mem]
      intro q hq
      obtain ⟨e', he', hmd', rfl⟩ := mem_mdBelow.mp hq
      obtain ⟨hmem, hprefix, hlen'⟩ := mem_below.mp he'
      rw [List.length_append, List.length_singleton] at hlen'
      have hin : e'.1 ∈ t.mdBelow dir := mem_mdBelow.mpr
        ⟨e', mem_below.mpr ⟨hmem, (List.prefix_append dir _).trans hprefix, by omega⟩, hmd', rfl⟩
      have hpath := congrArg List.length (hflat e'.1 hin)
      rw [List.length_append, List.length_singleton] at hpath
      omega

/-! ### Two orders -/

/-- The files first. -/
def filesFirst : Order := fun _ l =>
  (l.filter fun d => !d.isDirectory) ++ l.filter fun d => d.isDirectory

theorem lists_filesFirst : Lists filesFirst := by
  intro p l
  have h := List.filter_append_perm (fun d : Dirent => !d.isDirectory) l
  simpa [filesFirst] using h

/-- Where there is something below, there is a directory. -/
theorem mdBelow_of_not_isDir (hne : dir ≠ []) (hdir : t.isDir dir = false) : t.mdBelow dir = [] := by
  rw [List.eq_nil_iff_forall_not_mem]
  intro q hq
  obtain ⟨e, he, -, -⟩ := mem_mdBelow.mp hq
  obtain ⟨hmem, ⟨rest, hrest⟩, hlen⟩ := mem_below.mp he
  have hin : (dir ++ rest, e.2) ∈ t.entries := by
    rw [hrest]
    exact hmem
  have hrest' : rest ≠ [] := by
    rintro rfl
    rw [← hrest, List.append_nil] at hlen
    omega
  rw [isDir_above hin hne hrest'] at hdir
  cases hdir

/-- With the files first, each file that lies in the directory or below is found at least once. -/
theorem le_length_filesFirst (hne : dir ≠ []) (hfuel : (t.below dir).length < fuel) :
    (t.mdBelow dir).length ≤ (walkDir t filesFirst fuel dir).1.length := by
  by_cases hdir : t.isDir dir = true
  · cases fuel with
    | zero => omega
    | succ fuel =>
      rw [walkDir_succ hdir, ← length_mdBelow]
      have hfiles : ((t.listing dir).filter fun d => !d.isDirectory).filter Dirent.isMd =
          (t.listing dir).filter Dirent.isMd := by
        rw [List.filter_filter]
        refine List.filter_congr fun d _ => ?_
        cases hd : d.isDirectory <;> simp [Dirent.isMd, hd]
      rw [← hfiles]
      exact length_walkEntries_append fun d hd => by simpa using (List.mem_filter.mp hd).2
  · rw [mdBelow_of_not_isDir hne (by simpa using hdir)]
    exact Nat.zero_le _

/-- First an entry at which the walk throws, if there is one. -/
noncomputable def throwFirst (t : Tree) : Order := fun p l =>
  open Classical in
  match l.find? fun d => d.isDirectory && decide (¬ t.Walks (p ++ [d.name])) with
  | some d => d :: l.erase d
  | none => l

theorem lists_throwFirst : Lists (throwFirst t) := by
  intro p l
  unfold throwFirst
  split
  · rename_i d hd
    exact (List.perm_cons_erase (List.mem_of_find?_eq_some hd)).symm
  · exact .refl l

/-- With such an entry first, nothing is found. -/
theorem walkDir_throwFirst (hwalks : ¬ t.Walks dir) :
    walkDir t (throwFirst t) fuel dir = ([], false) := by
  induction fuel generalizing dir with
  | zero => rfl
  | succ fuel ih =>
    by_cases hdir : t.isDir dir = true
    · rw [walkDir_succ hdir]
      have hbad : ∃ d ∈ t.listing dir, d.isDirectory = true ∧ ¬ t.Walks (dir ++ [d.name]) := by
        by_contra hall
        simp only [not_exists, not_and, not_not] at hall
        refine hwalks (walks_iff.mpr ⟨hdir, fun e he hed => ?_⟩)
        exact hall _ (mem_listing.mpr ⟨e, he, rfl⟩) hed
      have hfirst : ∃ d l, throwFirst t dir (t.listing dir) = d :: l ∧ d.isDirectory = true ∧
          ¬ t.Walks (dir ++ [d.name]) := by
        unfold throwFirst
        split
        · rename_i d hd
          have := List.find?_some hd
          simp only [Bool.and_eq_true, decide_eq_true_eq] at this
          exact ⟨d, _, rfl, this⟩
        · rename_i hnone
          obtain ⟨d, hd, hdd, hnot⟩ := hbad
          have := List.find?_eq_none.mp hnone d hd
          simp [hdd, hnot] at this
      obtain ⟨d, l, hl, hdd, hnot⟩ := hfirst
      rw [hl, walkEntries, if_pos hdd, ih hnot]
      rfl
    · exact walkDir_of_not_isDir (by simpa using hdir)

end Walk

/-! ### The import -/

section Import
variable {h : Host} {parseFloat : String → JsNum} {now : ℤ} {t : Tree} {o : Outcome}
  {files : List Path} {file : Path}

theorem counts_foldl :
    ((files.foldl (migrateFile h parseFloat now t) o).imported.length +
      (files.foldl (migrateFile h parseFloat now t) o).skipped) =
        o.imported.length + o.skipped + files.length := by
  induction files generalizing o with
  | nil => rfl
  | cons file files ih =>
    rw [List.foldl_cons, ih, List.length_cons, migrateFile]
    split <;> simp <;> omega

/-- A row that stands stays. -/
theorem get_migrateFile {id : String} {l : Migrated} (hget : o.rows.get id = some l) :
    (migrateFile h parseFloat now t o file).rows.get id = some l := by
  unfold migrateFile
  split
  · rename_i rows hrows
    obtain ⟨l', -, hinsert⟩ := Option.bind_eq_some_iff.mp hrows
    rw [insertMigrated] at hinsert
    split at hinsert
    · cases hinsert
    · rw [Table.get_insert hinsert, if_neg]
      · exact hget
      · rintro rfl
        rw [(Table.rows_insert hinsert).1] at hget
        cases hget
  · exact hget

theorem get_foldl {id : String} {l : Migrated} (hget : o.rows.get id = some l) :
    (files.foldl (migrateFile h parseFloat now t) o).rows.get id = some l := by
  induction files generalizing o with
  | nil => exact hget
  | cons file files ih => exact ih (get_migrateFile hget)

/-- What can be imported: a record with a version that is a number, under an id that is free. -/
def Importable (rows : Rows) (l : Migrated) : Prop := l.version ≠ .nan ∧ rows.get l.id = none

/-- The file is imported if its record can be, and skipped otherwise. -/
theorem migrateFile_cases :
    (∃ l, accepted h parseFloat now t file = some l ∧ Importable o.rows l ∧
      (migrateFile h parseFloat now t o file).imported = o.imported ++ [file] ∧
      ∀ id, (migrateFile h parseFloat now t o file).rows.get id =
        if id = l.id then some l else o.rows.get id) ∨
    ((∀ l, accepted h parseFloat now t file = some l → ¬ Importable o.rows l) ∧
      (migrateFile h parseFloat now t o file).imported = o.imported ∧
      (migrateFile h parseFloat now t o file).rows = o.rows) := by
  unfold migrateFile
  split
  · rename_i rows hrows
    obtain ⟨l, hl, hinsert⟩ := Option.bind_eq_some_iff.mp hrows
    rw [insertMigrated] at hinsert
    split at hinsert
    · cases hinsert
    · rename_i hnan
      exact .inl ⟨l, hl, ⟨hnan, (Table.rows_insert hinsert).1⟩, rfl, Table.get_insert hinsert⟩
  · rename_i hnone
    refine .inr ⟨fun l hl hok => ?_, rfl, rfl⟩
    rw [hl, Option.bind_some, insertMigrated, if_neg hok.1, Table.insert_eq_none] at hnone
    exact hnone hok.2

theorem importable_of_mem (hmem : file ∈ (files.foldl (migrateFile h parseFloat now t) o).imported) :
    file ∈ o.imported ∨ ∃ l, accepted h parseFloat now t file = some l ∧ Importable o.rows l := by
  induction files generalizing o with
  | nil => exact .inl hmem
  | cons f files ih =>
    rw [List.foldl_cons] at hmem
    rcases @migrateFile_cases h parseFloat now t o f with
      ⟨l, hl, hok, himported, hget⟩ | ⟨-, himported, hrows⟩
    · rcases ih hmem with hin | ⟨l', hl', hnan, hfree⟩
      · rw [himported, List.mem_append, List.mem_singleton] at hin
        rcases hin with hin | rfl
        · exact .inl hin
        · exact .inr ⟨l, hl, hok⟩
      · refine .inr ⟨l', hl', hnan, ?_⟩
        rw [hget] at hfree
        split at hfree
        · cases hfree
        · exact hfree
    · rcases ih hmem with hin | ⟨l', hl', hok⟩
      · exact .inl (himported ▸ hin)
      · exact .inr ⟨l', hl', hrows ▸ hok⟩

/-- Files with different importable records are all imported. -/
theorem foldl_imported (hnodup : files.Nodup)
    (hdistinct : ∀ f ∈ files, ∀ f' ∈ files, ∀ l l', accepted h parseFloat now t f = some l →
      accepted h parseFloat now t f' = some l' → l.id = l'.id → f = f')
    (hok : ∀ f ∈ files, ∀ l, accepted h parseFloat now t f = some l → Importable o.rows l) :
    (files.foldl (migrateFile h parseFloat now t) o).imported =
        o.imported ++ files.filter (fun f => (accepted h parseFloat now t f).isSome) ∧
      ∀ f ∈ files, ∀ l, accepted h parseFloat now t f = some l →
        (files.foldl (migrateFile h parseFloat now t) o).rows.get l.id = some l := by
  induction files generalizing o with
  | nil => simp
  | cons f files ih =>
    obtain ⟨hf, hnodup⟩ := List.nodup_cons.mp hnodup
    have hdistinct' := fun g hg g' hg' => hdistinct g (List.mem_cons_of_mem f hg) g'
      (List.mem_cons_of_mem f hg')
    rw [List.foldl_cons]
    rcases @migrateFile_cases h parseFloat now t o f with
      ⟨l, hl, hokl, himported, hget⟩ | ⟨hnot, himported, hrows⟩
    · have hok' : ∀ g ∈ files, ∀ l', accepted h parseFloat now t g = some l' →
          Importable (migrateFile h parseFloat now t o f).rows l' := by
        intro g hg l' hl'
        obtain ⟨hnan, hfree⟩ := hok g (List.mem_cons_of_mem f hg) l' hl'
        refine ⟨hnan, ?_⟩
        rw [hget, if_neg]
        · exact hfree
        · intro hid
          have hsame := hdistinct g (List.mem_cons_of_mem f hg) f (List.mem_cons_self ..) l' l hl' hl hid
          exact hf (hsame ▸ hg)
      obtain ⟨hfold, hrest⟩ := ih hnodup hdistinct' hok'
      refine ⟨?_, ?_⟩
      · rw [hfold, himported, List.append_assoc, List.filter_cons_of_pos (by simp [hl])]
        rfl
      · intro g hg l' hl'
        rcases List.mem_cons.mp hg with rfl | hg
        · obtain rfl := Option.some.inj (hl.symm.trans hl')
          exact get_foldl ((hget l.id).trans (if_pos rfl))
        · exact hrest g hg l' hl'
    · have hnone : accepted h parseFloat now t f = none := by
        cases hl : accepted h parseFloat now t f with
        | none => rfl
        | some l => exact absurd (hok f (List.mem_cons_self ..) l hl) (hnot l hl)
      obtain ⟨hfold, hrest⟩ := ih hnodup hdistinct' (hrows.symm ▸ fun g hg =>
        hok g (List.mem_cons_of_mem f hg))
      refine ⟨?_, ?_⟩
      · rw [hfold, himported, List.filter_cons_of_neg (by simp [hnone])]
      · intro g hg l' hl'
        rcases List.mem_cons.mp hg with rfl | hg
        · rw [hnone] at hl'
          cases hl'
        · exact hrest g hg l' hl'

end Import

/-! ### The whole tree -/

/-- A tree that is walked as it should be: all memory files lie in the top directories themselves,
    and below a top directory with files each directory has the name of a subdirectory of it. -/
structure Tree.Shallow (t : Tree) : Prop where
  flat : ∀ dir ∈ legacyDirs, t.Flat [dir]
  walks : ∀ dir ∈ legacyDirs, t.mdBelow [dir] ≠ [] → t.Walks [dir]

section Whole
variable {h : Host} {parseFloat : String → JsNum} {now : ℤ} {t : Tree} {rows : Rows} {order : Order}

/-- Without one of the directories there is nothing to walk. -/
theorem maybeMigrate_eq :
    maybeMigrate h parseFloat now t order rows =
      (walkMdFiles t order).foldl (migrateFile h parseFloat now t) { rows := rows } := by
  unfold maybeMigrate
  split
  · rfl
  · rename_i hnone
    have hdirs : ∀ dir ∈ legacyDirs, t.isDir [dir] = false := by
      intro dir hdir
      rw [Bool.eq_false_iff]
      intro hd
      refine hnone (List.any_eq_true.mpr ⟨dir, hdir, List.any_eq_true.mpr ?_⟩)
      exact ⟨_, isDir_iff.mp hd, decide_eq_true rfl⟩
    have hwalk : walkMdFiles t order = [] := by
      refine List.flatMap_eq_nil_iff.mpr fun dir hdir => ?_
      rw [walkDir_of_not_isDir (hdirs dir hdir)]
    rw [hwalk]
    rfl

theorem length_below_lt (dir : Path) : (t.below dir).length < t.entries.length + 1 :=
  Nat.lt_succ_of_le (List.length_filter_le _ _)

theorem walkMdFiles_perm (horder : Lists order) (ht : t.Shallow) :
    (walkMdFiles t order).Perm t.mdFiles := by
  refine List.Perm.flatMap_left _ fun dir hdir => ?_
  by_cases hnone : t.mdBelow [dir] = []
  · rw [walkDir_nil horder hnone, hnone]
  · exact walkDir_flat horder (ht.walks dir hdir hnone) (length_below_lt _) (ht.flat dir hdir)

theorem nodup_mdFiles : t.mdFiles.Nodup := by
  refine List.nodup_flatMap.mpr ⟨fun dir _ => ?_, ?_⟩
  · exact t.nodup.sublist ((List.filter_sublist.trans List.filter_sublist).map Prod.fst)
  · refine List.Pairwise.imp ?_ (show legacyDirs.Nodup by decide)
    intro a b hab q ha hb
    obtain ⟨e, he, -, rfl⟩ := mem_mdBelow.mp ha
    obtain ⟨e', he', -, hq⟩ := mem_mdBelow.mp hb
    obtain ⟨-, ⟨x, hx⟩, -⟩ := mem_below.mp he
    obtain ⟨-, ⟨y, hy⟩, -⟩ := mem_below.mp he'
    rw [← hx, ← hy] at hq
    exact hab (List.cons.inj hq).1.symm

theorem length_flatMap_dirs (f : String → List Path) :
    (legacyDirs.flatMap f).length =
      (f "global").length + (f "scopes").length + (f "archived").length := by
  simp [legacyDirs, Nat.add_assoc]

/-- Each directory has as many files as are found in it, if none has more and the sums are equal. -/
theorem length_each {f g : String → List Path} (hle : ∀ d ∈ legacyDirs, (f d).length ≤ (g d).length)
    (hsum : (legacyDirs.flatMap f).length = (legacyDirs.flatMap g).length) :
    ∀ d ∈ legacyDirs, (f d).length = (g d).length := by
  rw [length_flatMap_dirs, length_flatMap_dirs] at hsum
  simp only [legacyDirs, List.mem_cons, List.not_mem_nil, or_false, forall_eq_or_imp,
    forall_eq] at hle ⊢
  omega

/-- Where each order finds as many files as there are, the tree is walked as it should be. -/
theorem shallow_of_length
    (hcount : ∀ order, Lists order → (walkMdFiles t order).length = t.mdFiles.length) :
    t.Shallow := by
  have hfirst := length_each (fun dir _ => le_length_filesFirst (t := t) (List.cons_ne_nil dir [])
    (length_below_lt _)) (hcount _ lists_filesFirst).symm
  have hflat : ∀ dir ∈ legacyDirs, t.Walks [dir] → t.Flat [dir] := by
    intro dir hdir hwalks
    by_contra hdeep
    have := lt_length_walkDir lists_filesFirst hwalks (length_below_lt _) hdeep
    rw [hfirst dir hdir] at this
    exact lt_irrefl _ this
  have hle : ∀ dir ∈ legacyDirs,
      (walkDir t (throwFirst t) (t.entries.length + 1) [dir]).1.length ≤ (t.mdBelow [dir]).length := by
    intro dir hdir
    by_cases hwalks : t.Walks [dir]
    · exact (walkDir_flat lists_throwFirst hwalks (length_below_lt _)
        (hflat dir hdir hwalks)).length_eq.le
    · rw [walkDir_throwFirst hwalks]
      exact Nat.zero_le _
  have hlast := length_each hle (hcount _ lists_throwFirst)
  have hwalks : ∀ dir ∈ legacyDirs, t.mdBelow [dir] ≠ [] → t.Walks [dir] := by
    intro dir hdir hsome
    by_contra hnot
    have := hlast dir hdir
    rw [walkDir_throwFirst hnot] at this
    exact hsome (List.length_eq_zero_iff.mp this.symm)
  refine ⟨fun dir hdir => ?_, hwalks⟩
  by_cases hsome : t.mdBelow [dir] = []
  · intro q hq
    rw [hsome] at hq
    cases hq
  · exact hflat dir hdir (hwalks dir hdir hsome)

/-- The migration is lossless, in whatever order directories are listed, exactly if the tree is walked
    as it should be and each record can be inserted. -/
theorem lossless_iff (hdistinct : ∀ f ∈ t.mdFiles, ∀ f' ∈ t.mdFiles, ∀ l l',
      accepted h parseFloat now t f = some l → accepted h parseFloat now t f' = some l' →
      l.id = l'.id → f = f') :
    (∀ order, Lists order →
        Lossless h parseFloat now t (maybeMigrate h parseFloat now t order rows)) ↔
      t.Shallow ∧ ∀ f ∈ t.mdFiles, ∀ l, accepted h parseFloat now t f = some l →
        Importable rows l := by
  constructor
  · intro hall
    refine ⟨shallow_of_length fun order horder => ?_, fun f hf l hl => ?_⟩
    · have hcounts := (hall order horder).counts
      rw [maybeMigrate_eq, counts_foldl] at hcounts
      simpa using hcounts
    · have hone := ((hall (fun _ l => l) fun _ l => .refl l).imported f hf l hl).1
      rw [maybeMigrate_eq] at hone
      have hmem := List.count_pos_iff.mp (by rw [hone]; exact Nat.one_pos)
      rcases importable_of_mem hmem with hnil | ⟨l', hl', hok⟩
      · cases hnil
      · obtain rfl := Option.some.inj (hl.symm.trans hl')
        exact hok
  · rintro ⟨ht, hok⟩ order horder
    have hperm := walkMdFiles_perm horder ht
    obtain ⟨himported, hrows⟩ := @foldl_imported h parseFloat now t { rows := rows } _
      (hperm.nodup_iff.mpr nodup_mdFiles)
      (fun f hf f' hf' => hdistinct f (hperm.mem_iff.mp hf) f' (hperm.mem_iff.mp hf'))
      (fun f hf => hok f (hperm.mem_iff.mp hf))
    rw [maybeMigrate_eq]
    refine ⟨fun f hf l hl => ⟨?_, hrows f (hperm.mem_iff.mpr hf) l hl⟩, ?_⟩
    · rw [himported, List.nil_append]
      refine List.count_eq_one_of_mem ((hperm.nodup_iff.mpr nodup_mdFiles).filter _) ?_
      exact List.mem_filter.mpr ⟨hperm.mem_iff.mpr hf, by simp [hl]⟩
    · rw [counts_foldl, hperm.length_eq]
      simp

end Whole

theorem closed_of_dropLast {entries : List (Path × Kind)}
    (h : (entries.all fun e => e.1.dropLast = [] ||
      entries.any fun d => d.1 = e.1.dropLast && d.2.isDir) = true) (dir : Path) (name : String)
    (kind : Kind) (he : (dir ++ [name], kind) ∈ entries) : dir = [] ∨ (dir, Kind.dir) ∈ entries := by
  have hparent := List.all_eq_true.mp h _ he
  simp only [List.dropLast_concat, Bool.or_eq_true, decide_eq_true_eq, List.any_eq_true,
    Bool.and_eq_true] at hparent
  refine hparent.imp_right ?_
  rintro ⟨⟨q, k⟩, hd, rfl, hk⟩
  cases k with
  | dir => exact hd
  | file text => cases hk

/-- A file written by hand. -/
def noteFile : Kind :=
  .file (.yaml (handWritten (.map [("sourceType", .str "manual")])) "Answer in one line.")

/-- One file in `global`. -/
def flatTree : Tree where
  entries := [(["global"], .dir), (["global", "m-1.md"], noteFile)]
  nodup := by decide
  closed := closed_of_dropLast (by decide)

theorem lossless_iff_flatTree :
    Lossless newYear (fun _ => .nan) 1767225600000 flatTree
      (maybeMigrate newYear (fun _ => .nan) 1767225600000 flatTree (fun _ l => l) .empty) := by
  have hfiles : flatTree.mdFiles = [["global", "m-1.md"]] := by decide +kernel
  have hbelow : ∀ dir ∈ legacyDirs, flatTree.mdBelow [dir] =
      if dir = "global" then [["global", "m-1.md"]] else [] := by decide +kernel
  have hwalks : flatTree.Walks ["global"] := by
    refine walks_iff.mpr ⟨by decide, fun e he hed => ?_⟩
    have hentries : flatTree.below ["global"] = [(["global", "m-1.md"], noteFile)] := rfl
    rw [hentries, List.mem_singleton] at he
    rw [he] at hed
    cases hed
  refine (lossless_iff ?_).mpr ⟨⟨?_, ?_⟩, ?_⟩ _ fun _ l => .refl l
  · rw [hfiles]
    simp
  · intro dir hdir q hq
    rw [hbelow dir hdir] at hq
    split at hq
    · rename_i hglobal
      rw [List.mem_singleton] at hq
      rw [hq, hglobal]
      rfl
    · cases hq
  · intro dir hdir hsome
    rw [hbelow dir hdir] at hsome
    split at hsome
    · rename_i hglobal
      rw [hglobal]
      exact hwalks
    · exact absurd rfl hsome
  · rw [hfiles]
    intro f hf l hl
    rw [List.mem_singleton.mp hf] at hl
    have hversion : (accepted newYear (fun _ => .nan) 1767225600000 flatTree
        ["global", "m-1.md"]).map (·.version) = some (.finite 1) := by decide +kernel
    rw [hl, Option.map_some, Option.some.injEq] at hversion
    exact ⟨by rw [hversion]; decide, rfl⟩

/-- One file in a scope of one part, beside a scope of three parts. -/
def nestedTree : Tree where
  entries := [(["scopes"], .dir), (["scopes", "a"], .dir), (["scopes", "a", "b"], .dir),
    (["scopes", "a", "b", "c"], .dir), (["scopes", "z"], .dir), (["scopes", "z", "m-1.md"], noteFile)]
  nodup := by decide
  closed := closed_of_dropLast (by decide)

/-- The directory of the longer scope makes the walk throw before it comes to the file, which is
    neither imported nor counted. -/
theorem nested_file_is_lost :
    ¬ Lossless newYear (fun _ => .nan) 1767225600000 nestedTree
      (maybeMigrate newYear (fun _ => .nan) 1767225600000 nestedTree (fun _ l => l) .empty) := by
  intro h
  have hcounts := h.counts
  revert hcounts
  decide +kernel

end Remembra.Sqlite.Legacy
