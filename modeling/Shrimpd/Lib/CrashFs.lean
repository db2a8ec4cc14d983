import Mathlib.Data.List.Basic
import Mathlib.Logic.Function.Basic

/-!
# A directory of files that can crash

Files are reached through the entries of one directory.  What is written to a
file is sure to survive a crash only once the file has been synced, and a change
of the directory only once the directory has been synced: until then a crash may
leave the file with any contents, and an entry with any value it had since.
-/

namespace Shrimpd.Lib.CrashFs

/-- A directory over the names `N` of files of `α`; files are numbered in the order in which they
are created. -/
structure Fs (N α : Type*) where
  next : Nat
  data : Nat → List α
  synced : Nat → Bool
  dir : N → Option Nat
  disk : N → List (Option Nat)

inductive Op (N α : Type*) where
  | create (n : N)
  | write (n : N) (xs : List α)
  | sync (n : N)
  | rename (src dst : N)
  | remove (n : N)
  | syncDir
  deriving DecidableEq

/-- What a crash picks for each entry, and what it leaves in files that were not synced. -/
structure Loss (N α : Type*) where
  pick : N → Nat
  contents : Nat → Option (List α)

namespace Fs

variable {N α : Type*}

/-- No file at all. -/
def empty : Fs N α := ⟨0, fun _ => [], fun _ => true, fun _ => none, fun _ => [none]⟩

/-- The entry that a crash leaves. -/
def kept (fs : Fs N α) (loss : Loss N α) (n : N) : Option Nat :=
  (fs.disk n).getD (loss.pick n) (fs.dir n)

/-- What is found on the disk after the crash is there to stay. -/
def crash (fs : Fs N α) (loss : Loss N α) : Fs N α where
  next := fs.next
  data i := if fs.synced i then fs.data i else (loss.contents i).getD (fs.data i)
  synced _ := true
  dir := fs.kept loss
  disk n := [fs.kept loss n]

/-- The present entry is one of those that may be on disk, and entries name files that exist. -/
structure Sound (fs : Fs N α) : Prop where
  dir_mem : ∀ n, fs.dir n ∈ fs.disk n
  lt_next : ∀ n i, some i ∈ fs.disk n → i < fs.next

/-- Whatever a crash does to the entry, there is no such file. -/
def Absent (fs : Fs N α) (n : N) : Prop := ∀ e ∈ fs.disk n, e = none

/-- Whatever a crash does to the entry, it names a file to which `xs` was written. -/
def Shows (fs : Fs N α) (n : N) (xs : List α) : Prop :=
  ∀ e ∈ fs.disk n, ∃ i, e = some i ∧ fs.data i = xs

/-- The entry names a file with these contents that no other entry can name. -/
def Owns (fs : Fs N α) (n : N) (xs : List α) : Prop :=
  ∃ i, fs.dir n = some i ∧ fs.data i = xs ∧ ∀ m, m ≠ n → some i ∉ fs.disk m

/-- Nothing has changed for an entry. -/
structure Same (fs fs' : Fs N α) (n : N) : Prop where
  dir_eq : fs'.dir n = fs.dir n
  disk_eq : fs'.disk n = fs.disk n
  data_eq : ∀ i, some i ∈ fs.disk n → fs'.data i = fs.data i

variable {fs fs' : Fs N α} {n m : N} {xs ys : List α}

theorem Same.refl (fs : Fs N α) (n : N) : Same fs fs n := ⟨rfl, rfl, fun _ _ => rfl⟩

theorem Same.absent (h : Same fs fs' n) (ha : fs.Absent n) : fs'.Absent n := by
  unfold Absent
  rw [h.disk_eq]
  exact ha

theorem Same.shows (h : Same fs fs' n) (hs : fs.Shows n xs) : fs'.Shows n xs := by
  intro e he
  rw [h.disk_eq] at he
  obtain ⟨i, rfl, hi⟩ := hs e he
  exact ⟨i, rfl, (h.data_eq i he).trans hi⟩

/-! ## After a crash -/

theorem Sound.kept_mem (hs : fs.Sound) (loss : Loss N α) (n : N) : fs.kept loss n ∈ fs.disk n := by
  unfold kept
  rw [List.getD_eq_getElem?_getD]
  cases h : (fs.disk n)[loss.pick n]? with
  | none => exact hs.dir_mem n
  | some e => exact List.mem_of_getElem? h

theorem Sound.crash (hs : fs.Sound) (loss : Loss N α) : (fs.crash loss).Sound := by
  refine ⟨fun n => List.mem_singleton.mpr rfl, ?_⟩
  intro n i hi
  exact hs.lt_next n i (List.mem_singleton.mp hi ▸ hs.kept_mem loss n)

/-! ## Operations -/

variable [DecidableEq N]

def setEntry (fs : Fs N α) (n : N) (e : Option Nat) : Fs N α :=
  { fs with
    dir := Function.update fs.dir n e
    disk := Function.update fs.disk n (fs.disk n ++ [e]) }

def setFile (fs : Fs N α) (i : Nat) (xs : List α) (synced : Bool) : Fs N α :=
  { fs with
    data := Function.update fs.data i xs
    synced := Function.update fs.synced i synced }

def step (fs : Fs N α) : Op N α → Fs N α
  | .create n =>
      { (fs.setFile fs.next [] false).setEntry n (some fs.next) with next := fs.next + 1 }
  | .write n xs =>
      match fs.dir n with
      | none => fs
      | some i => fs.setFile i (fs.data i ++ xs) false
  | .sync n =>
      match fs.dir n with
      | none => fs
      | some i => fs.setFile i (fs.data i) true
  | .rename src dst =>
      match fs.dir src with
      | none => fs
      | some i => (fs.setEntry src none).setEntry dst (some i)
  | .remove n => fs.setEntry n none
  | .syncDir => { fs with disk := fun n => [fs.dir n] }

def run (fs : Fs N α) (ops : List (Op N α)) : Fs N α := ops.foldl step fs

/-! ## Entries that an operation leaves alone -/

theorem same_setEntry (fs : Fs N α) (hne : n ≠ m) (e : Option Nat) : Same fs (fs.setEntry m e) n :=
  ⟨Function.update_of_ne hne _ _, Function.update_of_ne hne _ _, fun _ _ => rfl⟩

theorem same_create (hs : fs.Sound) (hne : n ≠ m) : Same fs (fs.step (.create m)) n :=
  ⟨Function.update_of_ne hne _ _, Function.update_of_ne hne _ _,
    fun i hi => Function.update_of_ne (Nat.ne_of_lt (hs.lt_next n i hi)) _ _⟩

theorem same_write (ho : fs.Owns m xs) (hne : n ≠ m) : Same fs (fs.step (.write m ys)) n := by
  obtain ⟨i, hi, -, hown⟩ := ho
  simp only [step, hi]
  refine ⟨rfl, rfl, ?_⟩
  intro j hj
  have hij : j ≠ i := fun heq => hown n hne (heq ▸ hj)
  exact Function.update_of_ne hij _ _

theorem same_sync (fs : Fs N α) (n m : N) : Same fs (fs.step (.sync m)) n := by
  simp only [step]
  split
  · exact Same.refl fs n
  · refine ⟨rfl, rfl, ?_⟩
    intro j _
    simp only [setFile, Function.update_apply]
    split
    · rename_i h
      rw [h]
    · rfl

theorem same_rename {src dst : N} (hsrc : n ≠ src) (hdst : n ≠ dst) :
    Same fs (fs.step (.rename src dst)) n := by
  simp only [step]
  split
  · exact Same.refl fs n
  · rename_i i _
    have hfrom := same_setEntry fs hsrc none
    have hto := same_setEntry (fs.setEntry src none) hdst (some i)
    exact ⟨hto.dir_eq.trans hfrom.dir_eq, hto.disk_eq.trans hfrom.disk_eq, fun _ _ => rfl⟩

theorem same_remove (hne : n ≠ m) : Same fs (fs.step (.remove m)) n := same_setEntry fs hne none

/-! ## What each operation keeps -/

theorem Sound.setEntry (hs : fs.Sound) {e : Option Nat} (he : ∀ i, e = some i → i < fs.next) (n : N) :
    (fs.setEntry n e).Sound := by
  refine ⟨?_, ?_⟩
  · intro m
    by_cases hm : m = n
    · subst hm
      simp [Fs.setEntry]
    · have h := same_setEntry fs hm e
      rw [h.dir_eq, h.disk_eq]
      exact hs.dir_mem m
  · intro m i hi
    by_cases hm : m = n
    · subst hm
      simp only [Fs.setEntry, Function.update_self, List.mem_append, List.mem_singleton] at hi
      rcases hi with hi | hi
      · exact hs.lt_next m i hi
      · exact he i hi.symm
    · rw [(same_setEntry fs hm e).disk_eq] at hi
      exact hs.lt_next m i hi

theorem Sound.step (hs : fs.Sound) (op : Op N α) : (fs.step op).Sound := by
  cases op with
  | create n =>
      have hgrown : Sound { fs.setFile fs.next [] false with next := fs.next + 1 } :=
        ⟨hs.dir_mem, fun m i hi => Nat.lt_succ_of_lt (hs.lt_next m i hi)⟩
      exact hgrown.setEntry (fun i hi => by cases hi; exact Nat.lt_succ_self _) n
  | write n xs =>
      simp only [Fs.step]
      split
      · exact hs
      · exact ⟨hs.dir_mem, hs.lt_next⟩
  | sync n =>
      simp only [Fs.step]
      split
      · exact hs
      · exact ⟨hs.dir_mem, hs.lt_next⟩
  | rename src dst =>
      simp only [Fs.step]
      split
      · exact hs
      · rename_i i hi
        have hlt : i < fs.next := hs.lt_next src i (hi ▸ hs.dir_mem src)
        exact (hs.setEntry (by simp) src).setEntry (fun j hj => by cases hj; exact hlt) dst
  | remove n => exact hs.setEntry (by simp) n
  | syncDir =>
      refine ⟨fun n => List.mem_singleton.mpr rfl, ?_⟩
      intro n i hi
      exact hs.lt_next n i (List.mem_singleton.mp hi ▸ hs.dir_mem n)

theorem owns_create (hs : fs.Sound) (n : N) : (fs.step (.create n)).Owns n [] := by
  refine ⟨fs.next, Function.update_self _ _ _, Function.update_self _ _ _, ?_⟩
  intro m hm hmem
  rw [(same_create hs hm).disk_eq] at hmem
  exact Nat.lt_irrefl _ (hs.lt_next m _ hmem)

theorem Owns.write (h : fs.Owns n xs) (ys : List α) :
    (fs.step (.write n ys)).Owns n (xs ++ ys) := by
  obtain ⟨i, hi, rfl, hown⟩ := h
  simp only [step, hi]
  exact ⟨i, hi, Function.update_self _ _ _, hown⟩

theorem Owns.sync (h : fs.Owns n xs) : (fs.step (.sync n)).Owns n xs := by
  obtain ⟨i, hi, rfl, hown⟩ := h
  simp only [step, hi]
  exact ⟨i, hi, Function.update_self _ _ _, hown⟩

/-- A file put in the place of one with the same contents. -/
theorem Shows.rename (h : fs.Shows m xs) (ho : fs.Owns n xs) (hne : m ≠ n) :
    (fs.step (.rename n m)).Shows m xs := by
  obtain ⟨i, hi, hdata, -⟩ := ho
  simp only [step, hi]
  intro e he
  simp only [setEntry, Function.update_self, Function.update_of_ne hne, List.mem_append,
    List.mem_singleton] at he
  rcases he with he | rfl
  · exact h e he
  · exact ⟨i, rfl, hdata⟩

/-- A file that is put in its place and whose directory is synced stays. -/
theorem shows_replace (ho : fs.Owns n xs) :
    ((fs.step (.rename n m)).step .syncDir).Shows m xs := by
  obtain ⟨i, hi, hdata, -⟩ := ho
  simp only [step, hi]
  intro e he
  simp only [setEntry, Function.update_self, List.mem_singleton] at he
  exact ⟨i, he, hdata⟩

theorem dir_rename (ho : fs.Owns n xs) : (fs.step (.rename n m)).dir m ≠ none := by
  obtain ⟨i, hi, -, -⟩ := ho
  simp [step, hi, setEntry]

theorem Shows.syncDir (h : fs.Shows n xs) (hs : fs.Sound) : (fs.step .syncDir).Shows n xs := by
  intro e he
  exact h e (List.mem_singleton.mp he ▸ hs.dir_mem n)

theorem Absent.syncDir (h : fs.Absent n) (hs : fs.Sound) : (fs.step .syncDir).Absent n := by
  intro e he
  exact h e (List.mem_singleton.mp he ▸ hs.dir_mem n)

end Fs

end Shrimpd.Lib.CrashFs
