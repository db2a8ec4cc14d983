import Shrimpd.Lib.Lines

/-!
# Lines written behind a file

Records are written behind whatever a file holds, after a batch that may have
been cut anywhere.  The reader returns the lines of the file, records of the cut
batch and the new records, in this order, just when the file and the cut both end
at the end of a line.  A fragment would be read as one line with the record that
follows it; counting the lines and their bytes excludes that any other record
makes up for it.
-/

namespace Shrimpd.Lib

/-! ## Whole lines -/

/-- A line that ends is read on its own, whatever follows. -/
theorem scanLines_ended {limit : Nat} (p cur rest : Bytes) :
    scanLines limit cur (p ++ newline :: rest) =
      (scanLines limit cur (p ++ [newline])).bind fun ls =>
        (scanLines limit [] rest).map (ls ++ ·) := by
  induction p generalizing cur with
  | nil =>
      rw [List.nil_append, List.nil_append, scanLines, scanLines, if_pos rfl, if_pos rfl]
      by_cases hcur : cur.length < limit
      · rw [if_pos hcur, if_pos hcur, scanLines, if_pos rfl]
        cases scanLines limit [] rest <;> rfl
      · rw [if_neg hcur, if_neg hcur]
        rfl
  | cons b p ih =>
      rw [List.cons_append, List.cons_append, scanLines, scanLines]
      by_cases hb : b = newline
      · rw [if_pos hb, if_pos hb]
        by_cases hcur : cur.length < limit
        · rw [if_pos hcur, if_pos hcur, ih]
          cases scanLines limit [] (p ++ [newline]) with
          | none => rfl
          | some ls => cases scanLines limit [] rest <;> rfl
        · rw [if_neg hcur, if_neg hcur]
          rfl
      · rw [if_neg hb, if_neg hb, ih]

theorem scanLines_clean {limit : Nat} {data : Bytes} (hclean : LineCodec.Clean data)
    (rest : Bytes) :
    scanLines limit [] (data ++ rest) =
      (scanLines limit [] data).bind fun ls => (scanLines limit [] rest).map (ls ++ ·) := by
  rcases hclean with rfl | hlast
  · rw [List.nil_append, scanLines, if_pos rfl]
    cases scanLines limit [] rest <;> rfl
  · obtain ⟨p, rfl⟩ := List.getLast?_eq_some_iff.mp hlast
    rw [List.append_assoc, List.singleton_append]
    exact scanLines_ended p [] rest

/-- Every file is whole lines and a fragment. -/
theorem exists_clean_fragment (data : Bytes) :
    ∃ u p, data = u ++ p ∧ LineCodec.Clean u ∧ newline ∉ p := by
  induction data using List.reverseRecOn with
  | nil => exact ⟨[], [], rfl, Or.inl rfl, List.not_mem_nil⟩
  | append_singleton data b ih =>
      by_cases hb : b = newline
      · refine ⟨data ++ [b], [], (List.append_nil _).symm, Or.inr ?_, List.not_mem_nil⟩
        rw [List.getLast?_concat, hb]
      · obtain ⟨u, p, rfl, hclean, hp⟩ := ih
        refine ⟨u, p ++ [b], List.append_assoc _ _ _, hclean, ?_⟩
        rw [List.mem_append, List.mem_singleton]
        rintro (hmem | heq)
        · exact hp hmem
        · exact hb heq.symm

/-! ## Blank lines -/

def nonblank (ls : List Bytes) : List Bytes := ls.filter fun l => !l.isEmpty

/-- The lines of a file that are not blank, if all of them fit. -/
def textLines (limit : Nat) (data : Bytes) : Option (List Bytes) :=
  (scanLines limit [] data).map nonblank

theorem nonblank_append (ls ms : List Bytes) :
    nonblank (ls ++ ms) = nonblank ls ++ nonblank ms := List.filter_append _ _

theorem textLines_clean {limit : Nat} {data : Bytes} (hclean : LineCodec.Clean data)
    (rest : Bytes) :
    textLines limit (data ++ rest) =
      (textLines limit data).bind fun ls => (textLines limit rest).map (ls ++ ·) := by
  rw [textLines, scanLines_clean hclean, textLines, textLines]
  cases scanLines limit [] data with
  | none => rfl
  | some ls =>
      cases scanLines limit [] rest with
      | none => rfl
      | some ms => exact congrArg some (nonblank_append ls ms)

/-- The text of a record: something, on one line, that no carriage return ends. -/
structure IsLine (l : Bytes) : Prop where
  ne_nil : l ≠ []
  newline_free : newline ∉ l
  no_cr : l.getLast? ≠ some 13

theorem IsLine.append {p l : Bytes} (hl : IsLine l) (hp : newline ∉ p) : IsLine (p ++ l) where
  ne_nil := fun hnil => hl.ne_nil (List.append_eq_nil_iff.mp hnil).2
  newline_free := by
    rw [List.mem_append]
    exact fun hmem => hmem.elim hp hl.newline_free
  no_cr := by
    rw [List.getLast?_append_of_ne_nil _ hl.ne_nil]
    exact hl.no_cr

theorem nonblank_of_isLine {ls : List Bytes} (hls : ∀ l ∈ ls, IsLine l) :
    nonblank (ls.map dropCR) = ls := by
  have hmap : ls.map dropCR = ls := by
    conv_rhs => rw [← List.map_id ls]
    exact List.map_congr_left fun l hl => if_neg (hls l hl).no_cr
  rw [hmap, nonblank, List.filter_eq_self]
  intro l hl
  rw [Bool.not_eq_true', List.isEmpty_eq_false_iff]
  exact (hls l hl).ne_nil

theorem textLines_unlines {limit : Nat} {ls : List Bytes} (hls : ∀ l ∈ ls, IsLine l) :
    textLines limit (unlines ls) =
      if ∀ l ∈ ls, l.length < limit then some ls else none := by
  have hscan := @scanLines_unlines limit ls (fun l hl => (hls l hl).newline_free) []
  rw [List.append_nil] at hscan
  rw [textLines, hscan]
  by_cases hshort : ∀ l ∈ ls, l.length < limit
  · rw [if_pos hshort, if_pos hshort, scanLines, if_pos rfl, Option.map_some, Option.map_some,
      List.append_nil, nonblank_of_isLine hls]
  · rw [if_neg hshort, if_neg hshort]
    rfl

/-- The bytes of some lines. -/
def volume (ls : List Bytes) : Nat := (ls.map List.length).sum

@[simp] theorem volume_nil : volume [] = 0 := rfl

@[simp] theorem volume_cons (l : Bytes) (ls : List Bytes) :
    volume (l :: ls) = l.length + volume ls := by
  simp [volume]

@[simp] theorem volume_append (ls ms : List Bytes) :
    volume (ls ++ ms) = volume ls + volume ms := by
  simp [volume]

/-- A fragment gives no more bytes than it has. -/
theorem volume_fragment_le {limit : Nat} {p : Bytes} (hp : newline ∉ p) {ls : List Bytes}
    (h : textLines limit p = some ls) : volume ls ≤ p.length := by
  rw [textLines, Option.map_eq_some_iff] at h
  obtain ⟨ms, hscan, rfl⟩ := h
  have happ := @scanLines_of_newline_free limit p hp [] []
  rw [List.append_nil, List.nil_append] at happ
  rw [happ, scanLines] at hscan
  have hdrop : (dropCR p).length ≤ p.length := by
    unfold dropCR
    split_ifs
    · rw [List.length_dropLast]
      omega
    · exact le_rfl
  split_ifs at hscan with hnil hlen
  · obtain rfl := Option.some.inj hscan
    exact Nat.zero_le _
  · obtain rfl := Option.some.inj hscan
    by_cases hblank : (dropCR p).isEmpty
    · simp [nonblank, hblank]
    · simp [nonblank, hblank, hdrop]

/-! ## Behind a fragment -/

/-- The first line continues a fragment. -/
def glue (p : Bytes) : List Bytes → List Bytes
  | [] => []
  | l :: ls => (p ++ l) :: ls

section Glue

variable {p : Bytes} {ls : List Bytes}

theorem unlines_glue (hls : ls ≠ []) (p : Bytes) : unlines (glue p ls) = p ++ unlines ls := by
  cases ls with
  | nil => exact absurd rfl hls
  | cons l ls => simp [glue]

theorem volume_glue (hls : ls ≠ []) (p : Bytes) : volume (glue p ls) = p.length + volume ls := by
  cases ls with
  | nil => exact absurd rfl hls
  | cons l ls =>
      rw [glue, volume_cons, volume_cons, List.length_append]
      omega

theorem length_glue (p : Bytes) (ls : List Bytes) : (glue p ls).length = ls.length := by
  cases ls <;> rfl

theorem glue_ne_nil (hls : ls ≠ []) (p : Bytes) : glue p ls ≠ [] := by
  cases ls with
  | nil => exact absurd rfl hls
  | cons l ls => exact List.cons_ne_nil _ _

theorem isLine_glue (hp : newline ∉ p) (hls : ∀ l ∈ ls, IsLine l) :
    ∀ l ∈ glue p ls, IsLine l := by
  cases ls with
  | nil => exact hls
  | cons m ls =>
      intro l hl
      rcases List.mem_cons.mp hl with rfl | hl
      · exact (hls m List.mem_cons_self).append hp
      · exact hls l (List.mem_cons_of_mem _ hl)

@[simp] theorem glue_nil (ls : List Bytes) : glue [] ls = ls := by
  cases ls <;> rfl

end Glue

/-! ## Records -/

namespace LineCodec

variable {ρ : Type} {c : LineCodec ρ} {limit : Nat}

theorem Lawful.isLine (hc : c.Lawful) (rs : List ρ) : ∀ l ∈ rs.map c.encode, IsLine l := by
  intro l hl
  obtain ⟨r, -, rfl⟩ := List.mem_map.mp hl
  exact ⟨hc.ne_nil r, hc.newline_free r, hc.no_cr r⟩

/-- Cutting a batch leaves whole records and a fragment. -/
theorem take_lines (hc : c.Lawful) (rs : List ρ) (n : Nat) :
    ∃ m p, (c.lines rs).take n = c.lines (rs.take m) ++ p ∧ newline ∉ p := by
  have hshort : c.Short ((c.lines rs).length + 1) rs := by
    intro r hr
    obtain ⟨before, after, rfl⟩ := List.append_of_mem hr
    rw [lines_append, lines_cons, List.length_append, List.length_append]
    omega
  obtain ⟨m, p, htake, hp, -⟩ := (shaped_lines (Nat.succ_pos _) rs).take hc hshort n
  exact ⟨m, p, htake, hp⟩

/-- A proper prefix of the records has fewer bytes. -/
theorem eq_of_volume_le (hc : c.Lawful) {rs ts : List ρ} (hsub : rs <+: ts)
    (hle : volume (ts.map c.encode) ≤ volume (rs.map c.encode)) : rs = ts := by
  obtain ⟨us, rfl⟩ := hsub
  cases us with
  | nil => rw [List.append_nil]
  | cons u us =>
      have hpos : 0 < (c.encode u).length := List.length_pos_of_ne_nil (hc.ne_nil u)
      rw [List.map_append, volume_append, List.map_cons, volume_cons] at hle
      omega

theorem volume_le_of_isPrefix {rs ts : List ρ} (hsub : rs <+: ts) :
    volume (rs.map c.encode) ≤ volume (ts.map c.encode) := by
  obtain ⟨us, rfl⟩ := hsub
  rw [List.map_append, volume_append]
  exact Nat.le_add_right _ _

/-- Lines that come out right leave no room for fragments. -/
theorem no_fragments (hc : c.Lawful) {p q : Bytes} (hp : newline ∉ p) {kept extra ps rs : List ρ}
    (hrs : rs ≠ []) (hkept : kept <+: ps) (hextra : extra <+: ps) {ls : List Bytes}
    (hls : textLines limit p = some ls)
    (heq : glue p (kept.map c.encode ++ glue q (rs.map c.encode)) =
      ls ++ (extra ++ rs).map c.encode) : p = [] ∧ q = [] ∧ ls = [] ∧ extra = kept := by
  have hne : rs.map c.encode ≠ [] := fun h => hrs (List.map_eq_nil_iff.mp h)
  have hne' : kept.map c.encode ++ glue q (rs.map c.encode) ≠ [] :=
    List.append_ne_nil_of_right_ne_nil _ (glue_ne_nil hne q)
  -- The lines are counted first, then their bytes.
  have hcount := congrArg List.length heq
  rw [length_glue, List.length_append, length_glue, List.length_append, List.length_map,
    List.length_map, List.length_map, List.length_append] at hcount
  have hbytes := congrArg volume heq
  rw [volume_glue hne', volume_append, volume_glue hne, volume_append, List.map_append,
    volume_append] at hbytes
  have hsub : extra <+: kept := List.prefix_of_prefix_length_le hextra hkept (by omega)
  have hless := volume_le_of_isPrefix (c := c) hsub
  have hfragment := volume_fragment_le hp hls
  obtain rfl := eq_of_volume_le hc hsub (by omega)
  obtain rfl : ls = [] := List.length_eq_zero_iff.mp (by omega)
  rw [volume_nil] at hbytes
  exact ⟨List.length_eq_zero_iff.mp (by omega), List.length_eq_zero_iff.mp (by omega), rfl, rfl⟩

theorem textLines_lines (hc : c.Lawful) (rs : List ρ) :
    textLines limit (c.lines rs) =
      if c.Short limit rs then some (rs.map c.encode) else none := by
  have hfits : (∀ l ∈ rs.map c.encode, l.length < limit) ↔ c.Short limit rs := List.forall_mem_map
  rw [lines_eq_unlines, textLines_unlines (hc.isLine rs)]
  by_cases hshort : c.Short limit rs
  · rw [if_pos hshort, if_pos (hfits.mpr hshort)]
  · rw [if_neg hshort, if_neg fun h => hshort (hfits.mp h)]

/-- Records behind a file and a cut batch are read back in order, after the lines of the file and
records of the batch, just when the file and the cut end a line and all the records fit. -/
theorem textLines_behind_iff (hc : c.Lawful) {data w : Bytes} {ps rs : List ρ} (hrs : rs ≠ [])
    (hw : w <+: c.lines ps) :
    (∃ before extra, textLines limit data = some before ∧ extra <+: ps ∧
        textLines limit (data ++ w ++ c.lines rs) =
          some (before ++ (extra ++ rs).map c.encode)) ↔
      Clean data ∧ (∃ before, textLines limit data = some before) ∧
        ∃ kept, kept <+: ps ∧ w = c.lines kept ∧ c.Short limit (kept ++ rs) := by
  constructor
  · rintro ⟨before, extra, hbefore, hextra, hafter⟩
    obtain ⟨u, p, rfl, hclean, hp⟩ := exists_clean_fragment data
    obtain ⟨m, q, htake, hq⟩ := take_lines hc ps w.length
    rw [← List.prefix_iff_eq_take.mp hw] at htake
    have hne : rs.map c.encode ≠ [] := fun h => hrs (List.map_eq_nil_iff.mp h)
    have hne' : (ps.take m).map c.encode ++ glue q (rs.map c.encode) ≠ [] :=
      List.append_ne_nil_of_right_ne_nil _ (glue_ne_nil hne q)
    have hbytes : u ++ p ++ w ++ c.lines rs =
        u ++ unlines (glue p ((ps.take m).map c.encode ++ glue q (rs.map c.encode))) := by
      rw [unlines_glue hne', unlines_append, unlines_glue hne, htake, lines_eq_unlines rs,
        lines_eq_unlines (ps.take m)]
      simp only [List.append_assoc]
    have hline : ∀ l ∈ glue p ((ps.take m).map c.encode ++ glue q (rs.map c.encode)), IsLine l := by
      apply isLine_glue hp
      intro l hl
      rcases List.mem_append.mp hl with hl | hl
      · exact hc.isLine _ l hl
      · exact isLine_glue hq (hc.isLine rs) l hl
    rw [hbytes, textLines_clean hclean, textLines_unlines hline] at hafter
    rw [textLines_clean hclean] at hbefore
    obtain ⟨ls, hu, hrest⟩ := Option.bind_eq_some_iff.mp hbefore
    obtain ⟨ms, hfragment, rfl⟩ := Option.map_eq_some_iff.mp hrest
    rw [hu, Option.bind_some] at hafter
    split_ifs at hafter with hshort
    · rw [Option.map_some, Option.some.injEq, List.append_assoc, List.append_cancel_left_eq]
        at hafter
      obtain ⟨rfl, rfl, rfl, rfl⟩ :=
        no_fragments hc hp hrs (List.take_prefix m ps) hextra hfragment hafter
      rw [List.append_nil] at htake ⊢
      refine ⟨hclean, ⟨ls, hu⟩, ps.take m, List.take_prefix m ps, htake, ?_⟩
      intro r hr
      apply hshort
      rw [glue_nil, glue_nil, ← List.map_append]
      exact List.mem_map_of_mem hr
    · cases hafter
  · rintro ⟨hclean, ⟨before, hbefore⟩, kept, hkept, rfl, hshort⟩
    refine ⟨before, kept, hbefore, hkept, ?_⟩
    rw [List.append_assoc, ← lines_append, textLines_clean hclean, hbefore,
      textLines_lines hc, if_pos hshort]
    rfl

end LineCodec

end Shrimpd.Lib
