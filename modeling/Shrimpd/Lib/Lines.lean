import Shrimpd.Lib.Bytes

/-!
# Files of newline-terminated records

`scanLines` is a line scanner with a bounded buffer.  A `LineCodec` writes one
record as one line; `Shaped` describes a file that a crash or a failed write may
have cut short: whole records followed by a fragment without a newline.  Cutting
such a file anywhere gives such a file again, and reading it returns at least
the whole records.
-/

namespace Shrimpd.Lib

def newline : UInt8 := 10

/-! ## The scanner -/

/-- Drop a trailing carriage return. -/
def dropCR (line : Bytes) : Bytes := if line.getLast? = some 13 then line.dropLast else line

/-- Scan with `cur` already read of the current line.  A line that does not fit
into `limit` bytes together with its end is an error; a last line need not be
terminated. -/
def scanLines (limit : Nat) : Bytes → Bytes → Option (List Bytes)
  | cur, [] =>
      if cur = [] then some []
      else if cur.length < limit then some [dropCR cur]
      else none
  | cur, b :: bs =>
      if b = newline then
        if cur.length < limit then (scanLines limit [] bs).map (dropCR cur :: ·)
        else none
      else scanLines limit (cur ++ [b]) bs

theorem scanLines_of_newline_free {limit : Nat} {p : Bytes} (hp : newline ∉ p)
    (cur rest : Bytes) :
    scanLines limit cur (p ++ rest) = scanLines limit (cur ++ p) rest := by
  induction p generalizing cur with
  | nil => simp
  | cons b p ih =>
      have hb : b ≠ newline := by
        rintro rfl
        exact hp (by simp)
      rw [List.cons_append, scanLines, if_neg hb, ih (fun hmem => hp (by simp [hmem]))]
      simp

theorem scanLines_fragment {limit : Nat} {p : Bytes} (hp : newline ∉ p)
    (hlen : p.length < limit) :
    scanLines limit [] p = some (if p = [] then [] else [dropCR p]) := by
  have happ := @scanLines_of_newline_free limit p hp [] []
  rw [List.append_nil, List.nil_append] at happ
  rw [happ, scanLines, if_pos hlen]
  split_ifs <;> rfl

/-! ## Whole lines -/

/-- Each line with its end. -/
def unlines (ls : List Bytes) : Bytes := ls.flatMap (· ++ [newline])

@[simp] theorem unlines_nil : unlines [] = [] := rfl

@[simp] theorem unlines_cons (l : Bytes) (ls : List Bytes) :
    unlines (l :: ls) = l ++ newline :: unlines ls := by
  simp [unlines]

@[simp] theorem unlines_append (ls ms : List Bytes) :
    unlines (ls ++ ms) = unlines ls ++ unlines ms := by
  simp [unlines]

theorem scanLines_line {limit : Nat} {l : Bytes} (hl : newline ∉ l) (rest : Bytes) :
    scanLines limit [] (l ++ newline :: rest) =
      if l.length < limit then (scanLines limit [] rest).map (dropCR l :: ·) else none := by
  rw [scanLines_of_newline_free hl, List.nil_append, scanLines, if_pos rfl]

/-- Lines are read back if all of them fit, and otherwise nothing is. -/
theorem scanLines_unlines {limit : Nat} {ls : List Bytes} (hls : ∀ l ∈ ls, newline ∉ l)
    (rest : Bytes) :
    scanLines limit [] (unlines ls ++ rest) =
      if ∀ l ∈ ls, l.length < limit then (scanLines limit [] rest).map (ls.map dropCR ++ ·)
      else none := by
  induction ls with
  | nil => simp
  | cons l ls ih =>
      have hrest := ih fun m hm => hls m (List.mem_cons_of_mem _ hm)
      rw [unlines_cons, List.append_assoc, List.cons_append,
        scanLines_line (hls l List.mem_cons_self), hrest]
      by_cases hl : l.length < limit
      · by_cases htail : ∀ m ∈ ls, m.length < limit
        · rw [if_pos hl, if_pos htail, if_pos (by simpa using ⟨hl, htail⟩),
            Option.map_map]
          rfl
        · rw [if_pos hl, if_neg htail, if_neg fun h => htail fun m hm => h m (by simp [hm])]
          rfl
      · rw [if_neg hl, if_neg fun h => hl (h l List.mem_cons_self)]

/-! ## Records as lines -/

structure LineCodec (ρ : Type) where
  encode : ρ → Bytes
  decode : Bytes → Option ρ

namespace LineCodec

variable {ρ : Type}

/-- One record is one nonempty line that reads back as itself. -/
structure Lawful (c : LineCodec ρ) : Prop where
  newline_free : ∀ r, newline ∉ c.encode r
  ne_nil : ∀ r, c.encode r ≠ []
  no_cr : ∀ r, (c.encode r).getLast? ≠ some 13
  decode_encode : ∀ r, c.decode (c.encode r) = some r

def line (c : LineCodec ρ) (r : ρ) : Bytes := c.encode r ++ [newline]

def lines (c : LineCodec ρ) (rs : List ρ) : Bytes := rs.flatMap c.line

/-- Every record fits into the scanner's buffer. -/
def Short (c : LineCodec ρ) (limit : Nat) (rs : List ρ) : Prop :=
  ∀ r ∈ rs, (c.encode r).length < limit

instance (c : LineCodec ρ) (limit : Nat) (rs : List ρ) : Decidable (c.Short limit rs) :=
  inferInstanceAs (Decidable (∀ r ∈ rs, _))

/-- Nonempty lines are decoded; a line that does not decode is skipped. -/
def read (c : LineCodec ρ) (limit : Nat) (data : Bytes) : Option (List ρ) :=
  (scanLines limit [] data).map fun ls => (ls.filter fun l => !l.isEmpty).filterMap c.decode

/-- The records `rs` on whole lines, then a fragment. -/
def Shaped (c : LineCodec ρ) (limit : Nat) (rs : List ρ) (data : Bytes) : Prop :=
  ∃ p, data = c.lines rs ++ p ∧ newline ∉ p ∧ p.length < limit

/-- Nothing or a whole number of lines. -/
def Clean (data : Bytes) : Prop := data = [] ∨ data.getLast? = some newline

instance (data : Bytes) : Decidable (Clean data) := inferInstanceAs (Decidable (_ ∨ _))

variable {c : LineCodec ρ} {limit : Nat}

@[simp] theorem lines_nil : c.lines [] = [] := rfl

@[simp] theorem lines_cons (r : ρ) (rs : List ρ) :
    c.lines (r :: rs) = c.encode r ++ newline :: c.lines rs := by
  simp [lines, line]

@[simp] theorem lines_append (rs ts : List ρ) :
    c.lines (rs ++ ts) = c.lines rs ++ c.lines ts := by
  simp [lines]

theorem Short.of_subset {rs ts : List ρ} (h : c.Short limit ts) (hsub : ∀ r ∈ rs, r ∈ ts) :
    c.Short limit rs := fun r hr => h r (hsub r hr)

theorem Short.append {rs ts : List ρ} (hrs : c.Short limit rs) (hts : c.Short limit ts) :
    c.Short limit (rs ++ ts) := by
  intro r hr
  rcases List.mem_append.mp hr with hr | hr
  · exact hrs r hr
  · exact hts r hr

/-! ## Reading -/

theorem dropCR_encode (hc : c.Lawful) (r : ρ) : dropCR (c.encode r) = c.encode r :=
  if_neg (hc.no_cr r)

theorem lines_eq_unlines (rs : List ρ) : c.lines rs = unlines (rs.map c.encode) := by
  induction rs with
  | nil => rfl
  | cons r rs ih => rw [lines_cons, List.map_cons, unlines_cons, ih]

theorem scanLines_lines (hc : c.Lawful) {rs : List ρ} (hshort : c.Short limit rs)
    (rest : Bytes) :
    scanLines limit [] (c.lines rs ++ rest) =
      (scanLines limit [] rest).map (rs.map c.encode ++ ·) := by
  have hfree : ∀ l ∈ rs.map c.encode, newline ∉ l := by
    rw [List.forall_mem_map]
    exact fun r _ => hc.newline_free r
  have hfits : ∀ l ∈ rs.map c.encode, l.length < limit := List.forall_mem_map.mpr hshort
  have hdrop : (rs.map c.encode).map dropCR = rs.map c.encode := by
    rw [List.map_map]
    exact List.map_congr_left fun r _ => dropCR_encode hc r
  rw [lines_eq_unlines, scanLines_unlines hfree, if_pos hfits, hdrop]

theorem filterMap_decode_encode (hc : c.Lawful) (rs : List ρ) :
    ((rs.map c.encode).filter fun l => !l.isEmpty).filterMap c.decode = rs := by
  induction rs with
  | nil => rfl
  | cons r rs ih =>
      rw [List.map_cons, List.filter_cons_of_pos (by simpa using hc.ne_nil r),
        List.filterMap_cons_some (hc.decode_encode r), ih]

/-- A file of whole lines reads back exactly. -/
theorem read_lines (hc : c.Lawful) {rs : List ρ} (hshort : c.Short limit rs) :
    c.read limit (c.lines rs) = some rs := by
  have hscan := scanLines_lines hc hshort []
  rw [List.append_nil] at hscan
  rw [read, hscan]
  simp [scanLines, filterMap_decode_encode hc]

/-- A cut file still reads, and returns its whole lines first. -/
theorem Shaped.read (hc : c.Lawful) {rs : List ρ} {data : Bytes}
    (h : c.Shaped limit rs data) (hshort : c.Short limit rs) :
    ∃ extra, c.read limit data = some (rs ++ extra) := by
  obtain ⟨p, rfl, hp, hlen⟩ := h
  rw [LineCodec.read, scanLines_lines hc hshort, scanLines_fragment hp hlen]
  simp only [Option.map_some, List.filter_append, List.filterMap_append,
    filterMap_decode_encode hc]
  exact ⟨_, rfl⟩

/-! ## Cutting -/

theorem shaped_lines (hlimit : 0 < limit) (rs : List ρ) : c.Shaped limit rs (c.lines rs) :=
  ⟨[], by simp, by simp, hlimit⟩

theorem Shaped.append {rs ts : List ρ} {data : Bytes} (h : c.Shaped limit ts data) :
    c.Shaped limit (rs ++ ts) (c.lines rs ++ data) := by
  obtain ⟨p, rfl, hp, hlen⟩ := h
  exact ⟨p, by simp, hp, hlen⟩

/-- Cutting keeps whole records in front of a fragment. -/
theorem Shaped.take (hc : c.Lawful) {rs : List ρ} {data : Bytes}
    (h : c.Shaped limit rs data) (hshort : c.Short limit rs) (n : Nat) :
    ∃ m, c.Shaped limit (rs.take m) (data.take n) := by
  obtain ⟨p, rfl, hp, hlen⟩ := h
  induction rs generalizing n with
  | nil =>
      refine ⟨0, p.take n, by simp, fun hmem => hp (List.mem_of_mem_take hmem), ?_⟩
      have := (List.take_sublist n p).length_le
      omega
  | cons r rs ih =>
      by_cases hn : n ≤ (c.encode r).length
      · -- The cut falls into the first line and leaves a fragment only.
        refine ⟨0, (c.encode r).take n, ?_, ?_, ?_⟩
        · rw [lines_cons, List.append_assoc, List.take_append_of_le_length hn]
          rfl
        · exact fun hmem => hc.newline_free r (List.mem_of_mem_take hmem)
        · have := hshort r (by simp)
          have := (List.take_sublist n (c.encode r)).length_le
          omega
      · have htail : c.Short limit rs := hshort.of_subset fun x hx => by simp [hx]
        obtain ⟨m, hm⟩ := ih htail (n - (c.encode r).length - 1)
        refine ⟨m + 1, ?_⟩
        have hsplit : (c.lines (r :: rs) ++ p).take n =
            c.lines [r] ++ (c.lines rs ++ p).take (n - (c.encode r).length - 1) := by
          obtain ⟨k, rfl⟩ : ∃ k, n = (c.encode r).length + 1 + k :=
            ⟨n - (c.encode r).length - 1, by omega⟩
          have hk : (c.encode r).length + 1 + k - (c.encode r).length - 1 = k := by omega
          have hlen1 : (c.lines [r]).length = (c.encode r).length + 1 := by simp
          rw [hk, ← hlen1, show r :: rs = [r] ++ rs from rfl, lines_append,
            List.append_assoc, List.take_length_add_append]
        rw [hsplit]
        exact hm.append

/-- A file whose last line is terminated has no fragment. -/
theorem Shaped.eq_of_clean {rs : List ρ} {data : Bytes} (h : c.Shaped limit rs data)
    (hclean : Clean data) : data = c.lines rs := by
  obtain ⟨p, rfl, hp, -⟩ := h
  cases hrev : p.reverse with
  | nil =>
      have : p = [] := by simpa using hrev
      simp [this]
  | cons b q =>
      have hpeq : p = q.reverse ++ [b] := by
        rw [← List.reverse_reverse p, hrev, List.reverse_cons]
      rcases hclean with hnil | hlast
      · simp [hpeq] at hnil
      · rw [hpeq, ← List.append_assoc, List.getLast?_concat] at hlast
        obtain rfl := Option.some.inj hlast
        exact absurd (by simp [hpeq]) hp

/-! ## Whole lines at the front -/

theorem encode_injective (hc : c.Lawful) : Function.Injective c.encode := by
  intro r t heq
  have hr := hc.decode_encode r
  rw [heq, hc.decode_encode t] at hr
  exact (Option.some.inj hr).symm

theorem newline_free_split {p q u v : Bytes} (hp : newline ∉ p) (hq : newline ∉ q)
    (heq : p ++ newline :: u = q ++ newline :: v) : p = q ∧ u = v := by
  induction p generalizing q with
  | nil =>
      cases q with
      | nil => simpa using heq
      | cons b q =>
          simp only [List.nil_append, List.cons_append, List.cons.injEq] at heq
          exact absurd (by simp [heq.1]) hq
  | cons a p ih =>
      cases q with
      | nil =>
          simp only [List.nil_append, List.cons_append, List.cons.injEq] at heq
          exact absurd (by simp [heq.1]) hp
      | cons b q =>
          simp only [List.cons_append, List.cons.injEq] at heq
          obtain ⟨hpq, huv⟩ := ih (fun h => hp (by simp [h])) (fun h => hq (by simp [h])) heq.2
          exact ⟨by rw [heq.1, hpq], huv⟩

/-- Whole lines at the front of a file are the first of its records. -/
theorem Shaped.records_of_lines (hc : c.Lawful) {ds rs : List ρ} {data : Bytes}
    (h : c.Shaped limit rs data) (hds : c.lines ds <+: data) : ds <+: rs := by
  obtain ⟨p, rfl, hp, -⟩ := h
  induction ds generalizing rs with
  | nil => exact List.nil_prefix
  | cons d ds ih =>
      obtain ⟨rest, hrest⟩ := hds
      rw [lines_cons, List.append_assoc, List.cons_append] at hrest
      cases rs with
      | nil =>
          exfalso
          apply hp
          rw [lines_nil, List.nil_append] at hrest
          simp [← hrest]
      | cons r rs =>
          rw [lines_cons, List.append_assoc, List.cons_append] at hrest
          obtain ⟨henc, htail⟩ :=
            newline_free_split (hc.newline_free d) (hc.newline_free r) hrest
          obtain rfl := encode_injective hc henc
          exact List.cons_prefix_cons.mpr ⟨rfl, ih ⟨rest, htail⟩⟩

end LineCodec

end Shrimpd.Lib
