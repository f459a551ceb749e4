import Mathlib.Data.List.DropRight
import Mathlib.Data.List.Forall2

/-!
# Text files

Line-oriented text as a C++ program reads it, byte by byte and in the "C" locale: the lines of a
file, blanks around a field, decimal numbers, and formatted input from a string stream.

Each reader has one lemma that says what it accepts, as an equivalence between what it returns and
the shape of the text: `trim_eq_iff`, `scanInteger_iff`, `readWord_iff`, `readInteger_iff`.  They
rest on one fact about splitting: a text has only one split into a run of elements that pass a test
and a rest that does not begin with one (`split_iff`).
-/

set_option autoImplicit false

namespace Text

/-! ## Bytes -/

/-- `std::isspace`. -/
def isSpace (c : UInt8) : Bool := c == 32 || (9 ≤ c && c ≤ 13)

/-- `std::isdigit`. -/
def isDigit (c : UInt8) : Bool := 48 ≤ c && c ≤ 57

/-- The bytes of an ASCII literal. -/
def ascii (s : String) : List UInt8 := s.toList.map fun c => c.toNat.toUInt8

/-- Bytes as part of a message. -/
def shown (bytes : List UInt8) : String := String.ofList (bytes.map fun c => Char.ofNat c.toNat)

theorem isSpace_of_isDigit {c : UInt8} (h : isDigit c = true) : isSpace c = false := by
  have hrange : 48 ≤ c.toNat ∧ c.toNat ≤ 57 := by
    simpa [isDigit, UInt8.le_iff_toNat_le] using h
  have hblank : c ≠ 32 := by
    rintro rfl
    exact absurd hrange.1 (by decide)
  simp [isSpace, UInt8.le_iff_toNat_le, hblank]
  omega

/-! ## Splitting at the first element that fails a test -/

section Split

variable {α : Type} {p : α → Bool}

/-- A list that does not begin with an element that passes the test. -/
def Stops (p : α → Bool) (l : List α) : Prop := ∀ x ∈ l.head?, p x = false

theorem stops_nil : Stops p [] := by
  rintro x ⟨⟩

theorem stops_cons {x : α} {l : List α} : Stops p (x :: l) ↔ p x = false := by
  simp [Stops]

theorem stops_append_iff {a b : List α} (hne : a ≠ []) : Stops p (a ++ b) ↔ Stops p a := by
  obtain ⟨x, a, rfl⟩ := List.exists_cons_of_ne_nil hne
  rw [List.cons_append, stops_cons, stops_cons]

theorem stops_dropWhile (l : List α) : Stops p (l.dropWhile p) := by
  have hhead := List.head?_dropWhile_not p l
  intro x hx
  rw [Option.mem_def.mp hx] at hhead
  exact hhead

theorem dropWhile_of_stops {l : List α} (h : Stops p l) : l.dropWhile p = l := by
  cases l with
  | nil => rfl
  | cons x l =>
    have hx := stops_cons.mp h
    exact List.dropWhile_cons_of_neg (by simp [hx])

theorem takeWhile_of_stops {l : List α} (h : Stops p l) : l.takeWhile p = [] := by
  cases l with
  | nil => rfl
  | cons x l =>
    have hx := stops_cons.mp h
    exact List.takeWhile_cons_of_neg (by simp [hx])

theorem dropWhile_split {a b : List α} (ha : ∀ x ∈ a, p x = true) (hb : Stops p b) :
    (a ++ b).dropWhile p = b := by
  rw [List.dropWhile_append_of_pos ha, dropWhile_of_stops hb]

theorem takeWhile_split {a b : List α} (ha : ∀ x ∈ a, p x = true) (hb : Stops p b) :
    (a ++ b).takeWhile p = a := by
  rw [List.takeWhile_append_of_pos ha, takeWhile_of_stops hb, List.append_nil]

/-- **The split is unique**, and it is the one that `takeWhile` and `dropWhile` make. -/
theorem split_iff {l a b : List α} :
    l.takeWhile p = a ∧ l.dropWhile p = b ↔ l = a ++ b ∧ (∀ x ∈ a, p x = true) ∧ Stops p b := by
  constructor
  · rintro ⟨rfl, rfl⟩
    exact ⟨List.takeWhile_append_dropWhile.symm, fun _ => List.mem_takeWhile_imp,
      stops_dropWhile l⟩
  · rintro ⟨rfl, ha, hb⟩
    exact ⟨takeWhile_split ha hb, dropWhile_split ha hb⟩

end Split

/-! ## Lines -/

/-- What `while (std::getline(file, line))` sees: a newline ends a line, and so does the end of the
file unless the line is empty. -/
def lines : List UInt8 → List (List UInt8)
  | [] => []
  | c :: text =>
    if c = 10 then [] :: lines text
    else
      match lines text with
      | [] => [[c]]
      | line :: rest => (c :: line) :: rest

/-- In a reading of a text line by line, every line is read as something. -/
theorem exists_of_forall₂ {α β : Type} {R : α → β → Prop} {as : List α} {bs : List β} {a : α}
    (h : List.Forall₂ R as bs) (ha : a ∈ as) : ∃ b ∈ bs, R a b := by
  induction h with
  | nil => cases ha
  | cons hab _ ih =>
    rcases List.mem_cons.mp ha with rfl | ha
    · exact ⟨_, List.mem_cons_self, hab⟩
    · obtain ⟨b, hb, hrel⟩ := ih ha
      exact ⟨b, List.mem_cons_of_mem _ hb, hrel⟩

/-! ## Blanks around a field -/

def Blank (s : List UInt8) : Prop := ∀ c ∈ s, isSpace c = true

/-- No blank at either end. -/
def Trimmed (s : List UInt8) : Prop := Stops isSpace s ∧ Stops isSpace s.reverse

/-- `t` with blanks around it. -/
structure Padded (s t : List UInt8) : Prop where
  trimmed : Trimmed t
  blanks : ∃ pre post, Blank pre ∧ Blank post ∧ s = pre ++ (t ++ post)

/-- `s` without the blanks at either end. -/
def trim (s : List UInt8) : List UInt8 := (s.dropWhile isSpace).rdropWhile isSpace

theorem Blank.append {s t : List UInt8} (hs : Blank s) (ht : Blank t) : Blank (s ++ t) := by
  intro c hc
  rcases List.mem_append.mp hc with hc | hc
  · exact hs c hc
  · exact ht c hc

theorem Blank.reverse {s : List UInt8} (h : Blank s) : Blank s.reverse := by
  intro c hc
  exact h c (List.mem_reverse.mp hc)

/-- **What `trim` returns**: the one text without blanks at its ends that stands between blanks. -/
theorem trim_eq_iff {s t : List UInt8} : trim s = t ↔ Padded s t := by
  constructor
  · rintro rfl
    obtain ⟨hs, hpre, hstop⟩ := (split_iff (p := isSpace) (l := s)).mp ⟨rfl, rfl⟩
    obtain ⟨hr, hpost, hlast⟩ :=
      (split_iff (p := isSpace) (l := (s.dropWhile isSpace).reverse)).mp ⟨rfl, rfl⟩
    have hmid : s.dropWhile isSpace =
        trim s ++ ((s.dropWhile isSpace).reverse.takeWhile isSpace).reverse := by
      have hrev := congrArg List.reverse hr
      rw [List.reverse_reverse, List.reverse_append] at hrev
      exact hrev
    refine ⟨⟨?_, ?_⟩, s.takeWhile isSpace, _, hpre, Blank.reverse hpost, ?_⟩
    · intro c hc
      refine hstop c ?_
      rw [hmid, List.head?_append, Option.mem_def.mp hc]
      rfl
    · show Stops isSpace ((s.dropWhile isSpace).reverse.dropWhile isSpace).reverse.reverse
      rw [List.reverse_reverse]
      exact hlast
    · rw [← hmid]
      exact hs
  · rintro ⟨⟨hfirst, hlast⟩, pre, post, hpre, hpost, rfl⟩
    unfold trim List.rdropWhile
    rcases List.eq_nil_or_concat t with rfl | ⟨init, last, rfl⟩
    · have hnil : (pre ++ ([] ++ post)).dropWhile isSpace = [] :=
        List.dropWhile_eq_nil_iff.mpr (hpre.append hpost)
      rw [hnil]
      rfl
    · rw [dropWhile_split hpre ((stops_append_iff (by simp)).mpr hfirst), List.reverse_append,
        dropWhile_split hpost.reverse hlast, List.reverse_reverse]

theorem Padded.unique {s t t' : List UInt8} (h : Padded s t) (h' : Padded s t') : t = t' := by
  rw [← trim_eq_iff.mpr h, ← trim_eq_iff.mpr h']

/-! ## Numbers -/

/-- The number that decimal digits write. -/
def decimal (digits : List UInt8) : Nat := digits.foldl (fun n d => 10 * n + (d.toNat - 48)) 0

/-- Decimal digits, at least one. -/
def Digits (s : List UInt8) : Prop := s ≠ [] ∧ ∀ d ∈ s, isDigit d = true

/-- A decimal number with an optional sign. -/
inductive Numeral : List UInt8 → Int → Prop
  | unsigned {ds : List UInt8} (h : Digits ds) : Numeral ds (decimal ds)
  | plus {ds : List UInt8} (h : Digits ds) : Numeral (43 :: ds) (decimal ds)
  | minus {ds : List UInt8} (h : Digits ds) : Numeral (45 :: ds) (-(decimal ds : Int))

/-- The digits at the front, as a number, and what follows them. -/
def scanDigits (s : List UInt8) : Option (Nat × List UInt8) :=
  if s.takeWhile isDigit = [] then none
  else some (decimal (s.takeWhile isDigit), s.dropWhile isDigit)

/-- The number at the front, with its sign, and what follows it. -/
def scanInteger : List UInt8 → Option (Int × List UInt8)
  | [] => none
  | c :: s =>
    if c = 45 then (scanDigits s).map fun r => (-(r.1 : Int), r.2)
    else if c = 43 then (scanDigits s).map fun r => ((r.1 : Int), r.2)
    else (scanDigits (c :: s)).map fun r => ((r.1 : Int), r.2)

theorem Digits.stops {s : List UInt8} (h : Digits s) : Stops isSpace s := by
  intro c hc
  exact isSpace_of_isDigit (h.2 c (List.mem_of_mem_head? hc))

theorem Digits.stops_reverse {s : List UInt8} (h : Digits s) : Stops isSpace s.reverse := by
  intro c hc
  exact isSpace_of_isDigit (h.2 c (List.mem_reverse.mp (List.mem_of_mem_head? hc)))

theorem scanDigits_iff {s rest : List UInt8} {n : Nat} :
    scanDigits s = some (n, rest) ↔
      ∃ ds, Digits ds ∧ decimal ds = n ∧ Stops isDigit rest ∧ s = ds ++ rest := by
  unfold scanDigits
  constructor
  · intro h
    split at h
    · cases h
    · rename_i hne
      cases h
      obtain ⟨hs, hds, hstop⟩ := (split_iff (p := isDigit) (l := s)).mp ⟨rfl, rfl⟩
      exact ⟨_, ⟨hne, hds⟩, rfl, hstop, hs⟩
  · rintro ⟨ds, hds, rfl, hstop, rfl⟩
    rw [takeWhile_split hds.2 hstop, dropWhile_split hds.2 hstop, if_neg hds.1]

/-- **What `scanInteger` reads.** -/
theorem scanInteger_iff {s rest : List UInt8} {z : Int} :
    scanInteger s = some (z, rest) ↔ ∃ a, Numeral a z ∧ Stops isDigit rest ∧ s = a ++ rest := by
  have hdigits : ∀ {t : List UInt8} {f : Nat → Int},
      (scanDigits t).map (fun r => (f r.1, r.2)) = some (z, rest) ↔
        ∃ ds, Digits ds ∧ z = f (decimal ds) ∧ Stops isDigit rest ∧ t = ds ++ rest := by
    intro t f
    rw [Option.map_eq_some_iff]
    constructor
    · rintro ⟨⟨n, r⟩, hscan, heq⟩
      obtain ⟨ds, hds, rfl, hstop, rfl⟩ := scanDigits_iff.mp hscan
      cases heq
      exact ⟨ds, hds, rfl, hstop, rfl⟩
    · rintro ⟨ds, hds, rfl, hstop, rfl⟩
      exact ⟨(decimal ds, rest), scanDigits_iff.mpr ⟨ds, hds, rfl, hstop, rfl⟩, rfl⟩
  constructor
  · intro h
    cases s with
    | nil => cases h
    | cons c s =>
      rw [scanInteger] at h
      split at h
      · rename_i hc
        obtain ⟨ds, hds, rfl, hstop, rfl⟩ := (hdigits (f := fun n => -(n : Int))).mp h
        exact ⟨45 :: ds, .minus hds, hstop, by rw [hc]; rfl⟩
      · split at h
        · rename_i hc
          obtain ⟨ds, hds, rfl, hstop, rfl⟩ := (hdigits (f := fun n => (n : Int))).mp h
          exact ⟨43 :: ds, .plus hds, hstop, by rw [hc]; rfl⟩
        · obtain ⟨ds, hds, rfl, hstop, heq⟩ := (hdigits (f := fun n => (n : Int))).mp h
          exact ⟨ds, .unsigned hds, hstop, heq⟩
  · rintro ⟨a, ha, hstop, rfl⟩
    cases ha with
    | unsigned hds =>
      obtain ⟨c, ds, rfl⟩ := List.exists_cons_of_ne_nil hds.1
      have hc : isDigit c = true := hds.2 c List.mem_cons_self
      have hne : c ≠ 45 ∧ c ≠ 43 := by
        constructor <;> (rintro rfl; exact absurd hc (by decide))
      rw [List.cons_append, scanInteger, if_neg hne.1, if_neg hne.2]
      exact (hdigits (f := fun n => (n : Int))).mpr ⟨c :: ds, hds, rfl, hstop, rfl⟩
    | plus hds => exact (hdigits (f := fun n => (n : Int))).mpr ⟨_, hds, rfl, hstop, rfl⟩
    | minus hds => exact (hdigits (f := fun n => -(n : Int))).mpr ⟨_, hds, rfl, hstop, rfl⟩

/-- A number begins and ends with a byte that is no blank. -/
theorem Numeral.trimmed {a : List UInt8} {z : Int} (h : Numeral a z) :
    a ≠ [] ∧ Stops isSpace a ∧ Stops isSpace a.reverse := by
  cases h with
  | unsigned hds => exact ⟨hds.1, hds.stops, hds.stops_reverse⟩
  | plus hds =>
    refine ⟨by simp, stops_cons.mpr (by decide), ?_⟩
    rw [List.reverse_cons]
    exact (stops_append_iff (by simpa using hds.1)).mpr hds.stops_reverse
  | minus hds =>
    refine ⟨by simp, stops_cons.mpr (by decide), ?_⟩
    rw [List.reverse_cons]
    exact (stops_append_iff (by simpa using hds.1)).mpr hds.stops_reverse

/-! ## Formatted input from a string stream

The state of a stream is what is left of its text.  `none` is `failbit`.  A read that succeeds sets
`eofbit` just when it has reached the end, and no read succeeds at the end, with or without it: so
`eof()` after a read is that nothing is left. -/

/-- `stream >> word` for a `std::string`. -/
def readWord (s : List UInt8) : Option (List UInt8 × List UInt8) :=
  if s.dropWhile isSpace = [] then none
  else
    some ((s.dropWhile isSpace).takeWhile fun c => !isSpace c,
      (s.dropWhile isSpace).dropWhile fun c => !isSpace c)

/-- `stream >> number` for a signed type with this range; a number out of it sets `failbit`. -/
def readInteger (range : Int × Int) (s : List UInt8) : Option (Int × List UInt8) :=
  match scanInteger (s.dropWhile isSpace) with
  | none => none
  | some (z, rest) => if range.1 ≤ z ∧ z ≤ range.2 then some (z, rest) else none

def Word (s : List UInt8) : Prop := s ≠ [] ∧ ∀ c ∈ s, isSpace c = false

/-- A word ends here: at a blank, or because nothing is left. -/
abbrev WordEnds (s : List UInt8) : Prop := Stops (fun c => !isSpace c) s

theorem Word.stops {s : List UInt8} (h : Word s) : Stops isSpace s := by
  intro c hc
  exact h.2 c (List.mem_of_mem_head? hc)

theorem wordEnds_of_blank {gap rest : List UInt8} (hgap : Blank gap) (hne : gap ≠ []) :
    WordEnds (gap ++ rest) := by
  obtain ⟨c, gap, rfl⟩ := List.exists_cons_of_ne_nil hne
  refine stops_cons.mpr ?_
  rw [hgap c List.mem_cons_self]
  rfl

/-- Between two words, or a word and a number, there is a blank. -/
theorem gap_ne_nil {gap a rest : List UInt8} (hne : a ≠ []) (ha : Stops isSpace a)
    (hstop : WordEnds (gap ++ (a ++ rest))) : gap ≠ [] := by
  rintro rfl
  obtain ⟨c, a, rfl⟩ := List.exists_cons_of_ne_nil hne
  have h₁ := stops_cons.mp ha
  have h₂ := stops_cons.mp hstop
  simp [h₁] at h₂

theorem readWord_iff {s w rest : List UInt8} :
    readWord s = some (w, rest) ↔ Word w ∧ WordEnds rest ∧
      ∃ gap, Blank gap ∧ s = gap ++ (w ++ rest) := by
  unfold readWord
  constructor
  · intro h
    split at h
    · cases h
    · rename_i hne
      obtain ⟨hs, hgap, hfirst⟩ := (split_iff (p := isSpace) (l := s)).mp ⟨rfl, rfl⟩
      obtain ⟨hw, hrest⟩ := Prod.mk.inj (Option.some.inj h)
      obtain ⟨heq, hword, hstop⟩ := split_iff.mp ⟨hw, hrest⟩
      refine ⟨⟨?_, ?_⟩, hstop, s.takeWhile isSpace, hgap, by rw [← heq]; exact hs⟩
      · -- the first byte that is left is no blank, so the word has it
        rintro rfl
        obtain ⟨c, t, hct⟩ := List.exists_cons_of_ne_nil hne
        rw [hct] at hfirst heq
        rw [List.nil_append] at heq
        rw [← heq] at hstop
        have h₁ := stops_cons.mp hfirst
        have h₂ := stops_cons.mp hstop
        simp [h₁] at h₂
      · intro c hc
        have := hword c hc
        simpa using this
  · rintro ⟨hword, hstop, gap, hgap, rfl⟩
    have hdrop : (gap ++ (w ++ rest)).dropWhile isSpace = w ++ rest :=
      dropWhile_split hgap ((stops_append_iff hword.1).mpr hword.stops)
    have hall : ∀ c ∈ w, (fun c => !isSpace c) c = true := by
      intro c hc
      simp [hword.2 c hc]
    rw [hdrop, if_neg (by simp [hword.1]), takeWhile_split hall hstop, dropWhile_split hall hstop]

theorem readInteger_iff {range : Int × Int} {s rest : List UInt8} {z : Int} :
    readInteger range s = some (z, rest) ↔ (range.1 ≤ z ∧ z ≤ range.2) ∧ Stops isDigit rest ∧
      ∃ gap a, Blank gap ∧ Numeral a z ∧ s = gap ++ (a ++ rest) := by
  unfold readInteger
  constructor
  · intro h
    obtain ⟨hs, hgap, _⟩ := (split_iff (p := isSpace) (l := s)).mp ⟨rfl, rfl⟩
    split at h
    · cases h
    · rename_i z' rest' hscan
      split at h
      · rename_i hrange
        cases h
        obtain ⟨a, ha, hstop, heq⟩ := scanInteger_iff.mp hscan
        exact ⟨hrange, hstop, s.takeWhile isSpace, a, hgap, ha, by rw [← heq]; exact hs⟩
      · cases h
  · rintro ⟨hrange, hstop, gap, a, hgap, ha, rfl⟩
    rw [dropWhile_split hgap ((stops_append_iff ha.trimmed.1).mpr ha.trimmed.2.1),
      scanInteger_iff.mpr ⟨a, ha, hstop, rfl⟩]
    exact if_pos hrange

end Text
