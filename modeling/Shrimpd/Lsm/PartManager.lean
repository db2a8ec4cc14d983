import Shrimpd.Lib.Exec
import Shrimpd.Types.Entry

/-!
# Open part files

The part manager keeps one open file for each part in use.  `Get` looks the part
up, opens and verifies the file without a lock, and then takes the lock again to
put it into the table; `Release` and `Close` take files out of the table and
close them after they have given the lock back.  The sections of any number of
calls may interleave.  Files are numbered in the order they are opened.
-/

namespace Shrimpd.Lsm.PartManager

open Shrimpd.Lib Shrimpd.Lib.Exec Shrimpd.Types

/-- What a call holds between two of its sections. -/
inductive Call where
  | verifying (id : Bytes) (pf : Nat)
  | closing (pf : Nat)
  deriving DecidableEq, Repr

def Call.pf : Call → Nat
  | .verifying _ pf => pf
  | .closing pf => pf

/-- `opened` has the part of every file that was ever opened, `returned` what `Get` has
returned. -/
structure Manager where
  fds : List (Bytes × Nat)
  calls : List Call
  opened : List Bytes
  closed : List Nat
  returned : List (Bytes × Nat)

def Manager.new : Manager := ⟨[], [], [], [], []⟩

inductive Label where
  /-- `Get` finds the part in the table. -/
  | hit (id : Bytes)
  /-- `Get` has not found the part, and `OpenPartV2` returns a file. -/
  | open (id : Bytes)
  /-- `VerifyPartV2` fails. -/
  | reject (k : Nat)
  /-- The last section of `Get`. -/
  | install (k : Nat)
  | release (id : Bytes)
  | shut
  /-- `pf.Close()`. -/
  | close (k : Nat)
  deriving DecidableEq, Repr

def step (m : Manager) : Label → Option Manager
  | .hit id =>
      match m.fds.find? fun x => x.1 == id with
      | none => none
      | some x => some { m with returned := m.returned ++ [x] }
  | .open id =>
      some { m with
        calls := m.calls ++ [.verifying id m.opened.length]
        opened := m.opened ++ [id] }
  | .reject k =>
      match m.calls[k]? with
      | some (.verifying _ pf) => some { m with calls := m.calls.set k (.closing pf) }
      | _ => none
  | .install k =>
      match m.calls[k]? with
      | some (.verifying id pf) =>
          match m.fds.find? fun x => x.1 == id with
          | some x => some { m with
              calls := m.calls.set k (.closing pf)
              returned := m.returned ++ [x] }
          | none => some { m with
              fds := m.fds ++ [(id, pf)]
              calls := m.calls.eraseIdx k
              returned := m.returned ++ [(id, pf)] }
      | _ => none
  | .release id =>
      match m.fds.find? fun x => x.1 == id with
      | none => some m
      | some x => some { m with
          fds := m.fds.filter fun x => x.1 != id
          calls := m.calls ++ [.closing x.2] }
  | .shut => some { m with fds := [], calls := m.calls ++ m.fds.map fun x => .closing x.2 }
  | .close k =>
      match m.calls[k]? with
      | some (.closing pf) => some { m with
          calls := m.calls.eraseIdx k
          closed := m.closed ++ [pf] }
      | _ => none

/-- What each section does. -/
inductive Stepped (m : Manager) : Label → Manager → Prop
  | hit {id : Bytes} {x : Bytes × Nat} (hx : x ∈ m.fds) :
      Stepped m (.hit id) { m with returned := m.returned ++ [x] }
  | open {id : Bytes} : Stepped m (.open id) { m with
      calls := m.calls ++ [.verifying id m.opened.length]
      opened := m.opened ++ [id] }
  | reject {k : Nat} {id : Bytes} {pf : Nat} (hk : m.calls[k]? = some (.verifying id pf)) :
      Stepped m (.reject k) { m with calls := m.calls.set k (.closing pf) }
  | lose {k : Nat} {id : Bytes} {pf : Nat} {x : Bytes × Nat}
      (hk : m.calls[k]? = some (.verifying id pf)) (hx : x ∈ m.fds) :
      Stepped m (.install k) { m with
        calls := m.calls.set k (.closing pf)
        returned := m.returned ++ [x] }
  | install {k : Nat} {id : Bytes} {pf : Nat} (hk : m.calls[k]? = some (.verifying id pf))
      (hnew : id ∉ m.fds.map Prod.fst) : Stepped m (.install k) { m with
        fds := m.fds ++ [(id, pf)]
        calls := m.calls.eraseIdx k
        returned := m.returned ++ [(id, pf)] }
  | absent {id : Bytes} : Stepped m (.release id) m
  | release {x : Bytes × Nat} (hx : x ∈ m.fds) : Stepped m (.release x.1) { m with
      fds := m.fds.filter fun y => y.1 != x.1
      calls := m.calls ++ [.closing x.2] }
  | shut : Stepped m .shut { m with
      fds := []
      calls := m.calls ++ m.fds.map fun x => .closing x.2 }
  | close {k : Nat} {pf : Nat} (hk : m.calls[k]? = some (.closing pf)) :
      Stepped m (.close k) { m with
        calls := m.calls.eraseIdx k
        closed := m.closed ++ [pf] }

theorem find_fds {fds : List (Bytes × Nat)} {id : Bytes} {x : Bytes × Nat}
    (h : (fds.find? fun y => y.1 == id) = some x) : x ∈ fds ∧ x.1 = id :=
  ⟨List.mem_of_find?_eq_some h, by simpa using List.find?_some h⟩

theorem stepped {m m' : Manager} {l : Label} (hstep : step m l = some m') : Stepped m l m' := by
  unfold step at hstep
  repeat' split at hstep
  all_goals cases hstep
  · exact .hit (find_fds (by assumption)).1
  · exact .open
  · exact .reject (by assumption)
  · exact .lose (by assumption) (find_fds (by assumption)).1
  · rename_i hk _ hfind
    refine .install hk fun hmem => ?_
    obtain ⟨x, hx, hid⟩ := List.mem_map.mp hmem
    exact List.find?_eq_none.mp hfind x hx (by simpa using hid)
  · exact .absent
  · rename_i hfind
    obtain ⟨hx, rfl⟩ := find_fds hfind
    exact .release hx
  · exact .shut
  · exact .close (by assumption)

/-- Where every file is: in the table, with a call, or closed. -/
def Manager.places (m : Manager) : List Nat :=
  m.fds.map Prod.snd ++ m.calls.map Call.pf ++ m.closed

structure Inv (m : Manager) : Prop where
  places : m.places.Perm (List.range m.opened.length)
  keys : (m.fds.map Prod.fst).Nodup
  listed : ∀ x ∈ m.fds, m.opened[x.2]? = some x.1
  called : ∀ id pf, Call.verifying id pf ∈ m.calls → m.opened[pf]? = some id
  returned : ∀ x ∈ m.returned, m.opened[x.2]? = some x.1

/-! ## Moving a file -/

section Moves

variable {m m' : Manager} {k : Nat} {call : Call} {id : Bytes} {pf : Nat}

theorem calls_perm (h : m.calls[k]? = some call) :
    (m.calls.map Call.pf).Perm (call.pf :: (m.calls.eraseIdx k).map Call.pf) := by
  obtain ⟨hk, rfl⟩ := List.getElem?_eq_some_iff.mp h
  exact ((List.getElem_cons_eraseIdx_perm hk).map Call.pf).symm

theorem map_pf_set {call' : Call} (h : m.calls[k]? = some call) (hpf : call'.pf = call.pf) :
    (m.calls.set k call').map Call.pf = m.calls.map Call.pf := by
  obtain ⟨hk, rfl⟩ := List.getElem?_eq_some_iff.mp h
  rw [List.map_set, hpf, ← List.map_set, List.set_getElem_self]

theorem fds_perm {fds : List (Bytes × Nat)} (hkeys : (fds.map Prod.fst).Nodup) {x : Bytes × Nat}
    (hx : x ∈ fds) :
    (fds.map Prod.snd).Perm (x.2 :: (fds.filter fun y => y.1 != x.1).map Prod.snd) := by
  have hfilter : (fds.filter fun y => y.1 != x.1) = fds.erase x := by
    rw [hkeys.of_map.erase_eq_filter]
    refine List.filter_congr fun y hy => ?_
    rw [Bool.eq_iff_iff, bne_iff_ne, bne_iff_ne]
    exact not_congr ⟨List.inj_on_of_nodup_map hkeys hy hx, congrArg Prod.fst⟩
  rw [hfilter]
  exact (List.perm_cons_erase hx).map Prod.snd

/-- Files move between the three places. -/
theorem Inv.moved (h : Inv m) (hopened : m'.opened = m.opened) (hcount : ∀ a,
    (m'.fds.map Prod.snd).count a + (m'.calls.map Call.pf).count a + m'.closed.count a =
      (m.fds.map Prod.snd).count a + (m.calls.map Call.pf).count a + m.closed.count a) :
    m'.places.Perm (List.range m'.opened.length) := by
  rw [hopened]
  refine List.Perm.trans (List.perm_iff_count.mpr fun a => ?_) h.places
  simp only [Manager.places, List.count_append, hcount]

theorem Inv.mem_set (h : Inv m) {c : Call} (hc : c ∈ m.calls.set k (.closing pf)) :
    ∀ id pf', c = .verifying id pf' → m.opened[pf']? = some id := by
  rintro id pf' rfl
  rcases List.mem_or_eq_of_mem_set hc with hc | hc
  · exact h.called id pf' hc
  · exact absurd hc (by simp)

/-- A call gives up its file. -/
theorem Inv.give_up (h : Inv m) (hk : m.calls[k]? = some (.verifying id pf))
    {returned : List (Bytes × Nat)} (hreturned : ∀ x ∈ returned, m.opened[x.2]? = some x.1) :
    Inv { m with calls := m.calls.set k (.closing pf), returned := returned } := by
  refine ⟨?_, h.keys, h.listed, fun id pf' hc => h.mem_set hc id pf' rfl, hreturned⟩
  have hset : (m.calls.set k (.closing pf)).map Call.pf = m.calls.map Call.pf := map_pf_set hk rfl
  simp only [Manager.places, hset]
  exact h.places

theorem inv_step {l : Label} (h : Inv m) (hstep : step m l = some m') : Inv m' := by
  cases stepped hstep with
  | hit hx =>
      exact { h with
        returned := List.forall_mem_append.mpr
          ⟨h.returned, List.forall_mem_singleton.mpr (h.listed _ hx)⟩ }
  | @«open» id =>
      have hold : ∀ (pf : Nat) (a : Bytes), m.opened[pf]? = some a →
          (m.opened ++ [id])[pf]? = some a := by
        intro pf a ha
        rw [List.getElem?_append_left (List.getElem?_eq_some_iff.mp ha).1]
        exact ha
      refine ⟨?_, h.keys, fun x hx => hold _ _ (h.listed x hx), ?_,
        fun x hx => hold _ _ (h.returned x hx)⟩
      · refine List.perm_iff_count.mpr fun a => ?_
        have hcount := h.places.count_eq a
        simp only [Manager.places, List.map_append, List.map_singleton, Call.pf, List.count_append,
          List.length_append, List.length_singleton, List.range_succ] at hcount ⊢
        omega
      · intro a pf hmem
        rcases List.mem_append.mp hmem with hmem | hmem
        · exact hold _ _ (h.called a pf hmem)
        · simp only [List.mem_singleton, Call.verifying.injEq] at hmem
          obtain ⟨rfl, rfl⟩ := hmem
          simp
  | reject hk => exact h.give_up hk h.returned
  | lose hk hx =>
      exact h.give_up hk (List.forall_mem_append.mpr
        ⟨h.returned, List.forall_mem_singleton.mpr (h.listed _ hx)⟩)
  | @install k id pf hk hnew =>
      have hopened : ∀ x ∈ [(id, pf)], m.opened[x.2]? = some x.1 :=
        List.forall_mem_singleton.mpr (h.called id pf (List.mem_of_getElem? hk))
      refine ⟨?_, ?_, List.forall_mem_append.mpr ⟨h.listed, hopened⟩,
        fun a pf' hmem => h.called a pf' (List.mem_of_mem_eraseIdx hmem),
        List.forall_mem_append.mpr ⟨h.returned, hopened⟩⟩
      · refine h.moved rfl fun a => ?_
        have hcalls := (calls_perm hk).count_eq a
        simp only [List.map_append, List.map_singleton, List.count_append, List.count_cons,
          List.count_nil, Call.pf] at hcalls ⊢
        omega
      · rw [List.map_append, List.map_singleton, ← List.concat_eq_append, List.nodup_concat]
        exact ⟨hnew, h.keys⟩
  | absent => exact h
  | release hx =>
      refine ⟨?_, h.keys.sublist (List.filter_sublist.map _),
        fun y hy => h.listed y (List.mem_filter.mp hy).1, fun a pf hmem => ?_, h.returned⟩
      · refine h.moved rfl fun a => ?_
        have hfds := (fds_perm h.keys hx).count_eq a
        simp only [List.map_append, List.map_singleton, List.count_append, List.count_cons,
          List.count_nil, Call.pf] at hfds ⊢
        omega
      · exact h.called a pf ((List.mem_append.mp hmem).resolve_right (by simp))
  | shut =>
      refine ⟨?_, List.nodup_nil, by simp, fun a pf hmem => ?_, h.returned⟩
      · refine h.moved rfl fun a => ?_
        simp only [List.map_nil, List.map_append, List.map_map, List.count_append, List.count_nil]
        exact congrArg (· + _) ((Nat.zero_add _).trans (Nat.add_comm _ _))
      · exact h.called a pf ((List.mem_append.mp hmem).resolve_right (by simp))
  | close hk =>
      refine ⟨?_, h.keys, h.listed,
        fun a pf' hmem => h.called a pf' (List.mem_of_mem_eraseIdx hmem), h.returned⟩
      refine h.moved rfl fun a => ?_
      have hcalls := (calls_perm hk).count_eq a
      simp only [List.count_append, List.count_cons, List.count_nil, Call.pf] at hcalls ⊢
      omega

theorem inv_exec {ls : List Label} (hrun : exec step Manager.new ls = some m) : Inv m := by
  refine invariant (fun _ _ _ h hstep => inv_step h hstep) ?_ hrun
  exact ⟨.nil, List.nodup_nil, by simp [Manager.new], by simp [Manager.new], by simp [Manager.new]⟩

/-! ## Files stay open -/

/-- `Release` of the part and `Close` take its file out of the table. -/
def Removes (id : Bytes) (l : Label) : Prop := l = .release id ∨ l = .shut

theorem mem_fds_step {l : Label} {x : Bytes × Nat} (hx : x ∈ m.fds) (hl : ¬ Removes x.1 l)
    (hstep : step m l = some m') : x ∈ m'.fds := by
  cases stepped hstep with
  | hit | «open» | reject | lose | absent | close => exact hx
  | install => exact List.mem_append_left _ hx
  | @release y =>
      have hne : x.1 ≠ y.1 := fun heq => hl (Or.inl (by rw [heq]))
      exact List.mem_filter.mpr ⟨hx, by simpa using hne⟩
  | shut => exact absurd (Or.inr rfl) hl

/-- What `Get` returns is in the table. -/
theorem mem_fds_of_returned {l : Label} {x : Bytes × Nat} (hstep : step m l = some m')
    (hx : m'.returned = m.returned ++ [x]) : x ∈ m'.fds := by
  have hnot : m.returned ≠ m.returned ++ [x] := by simp
  cases stepped hstep with
  | hit hy | lose _ hy =>
      cases List.append_cancel_left hx
      exact hy
  | install =>
      cases List.append_cancel_left hx
      simp
  | «open» | reject | absent | release | shut | close => exact absurd hx hnot

end Moves

/-! ## Results -/

section Results

variable {ls : List Label} {m : Manager}

/-- Under any interleaving of the calls every file that was opened is in one place: in the
table, with one call, or closed.  No file is closed twice, none is forgotten, and the table
has one file of each part, opened for that part. -/
theorem files_have_one_place (hrun : exec step Manager.new ls = some m) :
    m.places.Perm (List.range m.opened.length) ∧ m.closed.Nodup ∧
      (m.fds.map Prod.fst).Nodup ∧ ∀ x ∈ m.fds ++ m.returned, m.opened[x.2]? = some x.1 := by
  have h := inv_exec hrun
  refine ⟨h.places, ?_, h.keys, List.forall_mem_append.mpr ⟨h.listed, h.returned⟩⟩
  exact (h.places.nodup_iff.mpr List.nodup_range).sublist (List.sublist_append_right _ _)

/-- Two calls of `Get` race for one part; the loser's file is closed. -/
def raceRun : List Label :=
  [.open [97], .open [97], .install 1, .install 0, .close 0, .hit [97]]

theorem files_have_one_place_raceRun :
    ∃ m, exec step Manager.new raceRun = some m ∧ m.closed = [0] ∧
      m.returned = [([97], 1), ([97], 1), ([97], 1)] ∧ m.places.Perm (List.range 2) := by
  have hrun : exec step Manager.new raceRun =
      some ((exec step Manager.new raceRun).getD Manager.new) := exec_eq_getD (by decide)
  exact ⟨_, hrun, by decide, by decide, (files_have_one_place hrun).1⟩

/-- A file that `Get` returns is open, and stays so until `Release` of its part or `Close`. -/
theorem returned_stays_open {m' m'' : Manager} {l : Label} {x : Bytes × Nat} {ls' : List Label}
    (hrun : exec step Manager.new ls = some m) (hget : step m l = some m')
    (hx : m'.returned = m.returned ++ [x]) (hkept : ∀ l ∈ ls', ¬ Removes x.1 l)
    (hrun' : exec step m' ls' = some m'') :
    x ∈ m''.fds ∧ x.2 ∉ m''.calls.map Call.pf ∧ x.2 ∉ m''.closed := by
  have hall : Inv m'' ∧ x ∈ m''.fds := by
    refine invariant_along (I := fun m => Inv m ∧ x ∈ m.fds) ?_
      ⟨inv_step (inv_exec hrun) hget, mem_fds_of_returned hget hx⟩
      (along_of_forall hkept m') hrun'
    rintro s l t ⟨hinv, hmem⟩ hl hstep
    exact ⟨inv_step hinv hstep, mem_fds_step hmem hl hstep⟩
  obtain ⟨hinv, hmem⟩ := hall
  have hnodup := hinv.places.nodup_iff.mpr List.nodup_range
  rw [Manager.places, List.append_assoc] at hnodup
  have hnot := List.disjoint_of_nodup_append hnodup (List.mem_map_of_mem hmem)
  exact ⟨hmem, fun h => hnot (List.mem_append_left _ h), fun h => hnot (List.mem_append_right _ h)⟩

/-- Another part is opened and released meanwhile. -/
theorem returned_stays_open_raceRun :
    ∃ m m' m'', exec step Manager.new [.open [97]] = some m ∧ step m (.install 0) = some m' ∧
      exec step m' [.open [98], .install 0, .release [98], .close 0] = some m'' ∧
        ([97], 0) ∈ m''.fds ∧ 0 ∉ m''.closed ∧ m''.closed = [1] := by
  have hrun : exec step Manager.new [.open [97]] =
      some ⟨[], [.verifying [97] 0], [[97]], [], []⟩ := rfl
  have hget : step ⟨[], [.verifying [97] 0], [[97]], [], []⟩ (.install 0) =
      some ⟨[([97], 0)], [], [[97]], [], [([97], 0)]⟩ := rfl
  have hrun' : exec step ⟨[([97], 0)], [], [[97]], [], [([97], 0)]⟩
      [.open [98], .install 0, .release [98], .close 0] =
        some ⟨[([97], 0)], [], [[97], [98]], [1], [([97], 0), ([98], 1)]⟩ := rfl
  obtain ⟨hmem, -, hclosed⟩ :=
    returned_stays_open hrun hget rfl (by simp [Removes]) hrun'
  exact ⟨_, _, _, hrun, hget, hrun', hmem, hclosed, rfl⟩

end Results

end Shrimpd.Lsm.PartManager
