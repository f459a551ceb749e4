import Mathlib.Data.List.Basic
import Mathlib.Tactic.Ring

/-!
# Framed streams

A stream is a list of symbols that a writer extends frame by frame and that a reader takes apart
from the front.  Here are the two halves every such format shares.

* `toBE`, `ofBE` — fixed-width big-endian numbers; `ofBE_toBE` and `toBE_ofBE` are the round trips.
* `Framing` — what a reader must do for the frames of a writer: read a frame that is there,
  whatever follows it, and report the end at a frame that was cut short (`Torn`).
* `scan` — read until the end or an error; `scan_refused` says that it returns the frames before the
  one that is refused, `scan_frames` that it returns the frames of a stream that ends in a torn
  frame, and `cut_frames` that a cut anywhere in such a stream gives such a stream again, without
  losing a frame that lies before the cut.
-/

set_option autoImplicit false

namespace Framing

/-! ## Big-endian numbers -/

/-- The `k` low bytes of `n`, most significant first. -/
def toBE : Nat → Nat → List UInt8
  | 0, _ => []
  | k + 1, n => UInt8.ofNat (n / 256 ^ k) :: toBE k n

/-- The number that bytes denote, most significant first. -/
def ofBE (bytes : List UInt8) : Nat := bytes.foldl (fun v b => v * 256 + b.toNat) 0

@[simp] theorem toBE_length (k n : Nat) : (toBE k n).length = k := by
  induction k with
  | zero => rfl
  | succ k ih => simp [toBE, ih]

theorem ofBE_foldl (bytes : List UInt8) :
    ∀ v, bytes.foldl (fun v b => v * 256 + b.toNat) v = v * 256 ^ bytes.length + ofBE bytes := by
  unfold ofBE
  induction bytes with
  | nil => simp
  | cons b bytes ih =>
    intro v
    rw [List.foldl_cons, List.foldl_cons, ih, ih (0 * 256 + b.toNat), List.length_cons,
      Nat.pow_succ]
    ring

theorem ofBE_cons (b : UInt8) (bytes : List UInt8) :
    ofBE (b :: bytes) = b.toNat * 256 ^ bytes.length + ofBE bytes := by
  have h := ofBE_foldl bytes (0 * 256 + b.toNat)
  rw [Nat.zero_mul, Nat.zero_add] at h
  unfold ofBE at h ⊢
  rw [List.foldl_cons, Nat.zero_mul, Nat.zero_add]
  exact h

/-- Reading a written number gives its low bytes. -/
theorem ofBE_toBE (k n : Nat) : ofBE (toBE k n) = n % 256 ^ k := by
  induction k with
  | zero => simp [toBE, ofBE, Nat.mod_one]
  | succ k ih =>
    have hbyte : (UInt8.ofNat (n / 256 ^ k)).toNat = n / 256 ^ k % 256 := by simp
    rw [toBE, ofBE_cons, toBE_length, ih, hbyte, Nat.mod_pow_succ]
    ring

theorem ofBE_toBE_of_lt {k n : Nat} (h : n < 256 ^ k) : ofBE (toBE k n) = n := by
  rw [ofBE_toBE, Nat.mod_eq_of_lt h]

theorem ofBE_lt (bytes : List UInt8) : ofBE bytes < 256 ^ bytes.length := by
  induction bytes with
  | nil => simp [ofBE]
  | cons b bytes ih =>
    have hb := b.toNat_lt
    rw [ofBE_cons, List.length_cons, Nat.pow_succ]
    calc b.toNat * 256 ^ bytes.length + ofBE bytes
        < b.toNat * 256 ^ bytes.length + 256 ^ bytes.length := Nat.add_lt_add_left ih _
      _ = (b.toNat + 1) * 256 ^ bytes.length := by ring
      _ ≤ 256 * 256 ^ bytes.length := Nat.mul_le_mul_right _ hb
      _ = 256 ^ bytes.length * 256 := Nat.mul_comm _ _

/-- The low bytes of a number do not depend on what stands above them. -/
theorem toBE_add_mul (m c : Nat) : ∀ {j k : Nat}, j ≤ k → toBE j (m + c * 256 ^ k) = toBE j m
  | 0, _, _ => rfl
  | j + 1, k, h => by
    obtain ⟨i, rfl⟩ : ∃ i, k = j + 1 + i := ⟨k - (j + 1), by omega⟩
    have hdiv : (m + c * 256 ^ (j + 1 + i)) / 256 ^ j = m / 256 ^ j + c * 256 ^ i * 256 := by
      rw [show c * 256 ^ (j + 1 + i) = c * 256 ^ i * 256 * 256 ^ j by ring]
      exact Nat.add_mul_div_right _ _ (Nat.pow_pos (by decide))
    have hbyte : UInt8.ofNat (m / 256 ^ j + c * 256 ^ i * 256) = UInt8.ofNat (m / 256 ^ j) := by
      apply UInt8.toNat_inj.mp
      simp
    rw [toBE, toBE, toBE_add_mul m c (by omega), hdiv, hbyte]

/-- Writing a number that was read gives its bytes back. -/
theorem toBE_ofBE (bytes : List UInt8) : toBE bytes.length (ofBE bytes) = bytes := by
  induction bytes with
  | nil => rfl
  | cons b bytes ih =>
    have hdiv : (ofBE bytes + b.toNat * 256 ^ bytes.length) / 256 ^ bytes.length = b.toNat := by
      rw [Nat.add_mul_div_right _ _ (Nat.pow_pos (by decide)), Nat.div_eq_of_lt (ofBE_lt bytes),
        Nat.zero_add]
    rw [List.length_cons, toBE, ofBE_cons, Nat.add_comm (b.toNat * _), hdiv,
      toBE_add_mul _ _ (Nat.le_refl _), ih, UInt8.ofNat_toNat]

theorem toBE_ofBE_of_length {k : Nat} {bytes : List UInt8} (h : bytes.length = k) :
    toBE k (ofBE bytes) = bytes := by
  rw [← h, toBE_ofBE]

/-! ## Readers -/

variable {α R ε : Type}

/-- Outcome of reading a stream to its end: the frames, the symbols behind them, and the error if
the reader stopped at one. -/
structure Scan (α R ε : Type) where
  frames : List R
  tail : List α
  error : Option ε

/-- Read frames until there is none or an error; at most `fuel` of them. -/
def scan (read : List α → Except ε (Option (R × List α))) : Nat → List α → Scan α R ε
  | 0, stream => ⟨[], stream, none⟩
  | fuel + 1, stream =>
    match read stream with
    | .error e => ⟨[], stream, some e⟩
    | .ok none => ⟨[], stream, none⟩
    | .ok (some (r, rest)) =>
      let s := scan read fuel rest
      ⟨r :: s.frames, s.tail, s.error⟩

/-- An error of a scan is an error of its reader. -/
theorem scan_error {read : List α → Except ε (Option (R × List α))} {e : ε} :
    ∀ {fuel : Nat} {stream : List α}, (scan read fuel stream).error = some e →
      ∃ rest, read rest = .error e
  | 0, stream, h => by cases h
  | fuel + 1, stream, h => by
    unfold scan at h
    split at h
    · rename_i e' he
      cases h
      exact ⟨stream, he⟩
    · cases h
    · exact scan_error h

/-- Frames written one after another. -/
def encodeAll (encode : R → List α) (rs : List R) : List α := (rs.map encode).flatten

@[simp] theorem encodeAll_nil (encode : R → List α) : encodeAll encode [] = [] := rfl

@[simp] theorem encodeAll_cons (encode : R → List α) (r : R) (rs : List R) :
    encodeAll encode (r :: rs) = encode r ++ encodeAll encode rs := rfl

theorem encodeAll_append (encode : R → List α) (rs ss : List R) :
    encodeAll encode (rs ++ ss) = encodeAll encode rs ++ encodeAll encode ss := by
  simp [encodeAll]

theorem encodeAll_concat (encode : R → List α) (rs : List R) (r : R) :
    encodeAll encode (rs ++ [r]) = encodeAll encode rs ++ encode r := by
  simp [encodeAll]

/-- Frames of at least `k` symbols each. -/
theorem le_length_encodeAll {encode : R → List α} {k : Nat} {rs : List R}
    (h : ∀ r ∈ rs, k ≤ (encode r).length) : k * rs.length ≤ (encodeAll encode rs).length := by
  induction rs with
  | nil => simp
  | cons r rs ih =>
    have hr := h r List.mem_cons_self
    have hrs := ih fun x hx => h x (List.mem_cons_of_mem _ hx)
    rw [encodeAll_cons, List.length_append, List.length_cons, Nat.mul_add]
    omega

/-- One frame takes no more room than all of them. -/
theorem length_encode_le (encode : R → List α) {rs : List R} {r : R} (h : r ∈ rs) :
    (encode r).length ≤ (encodeAll encode rs).length :=
  (List.sublist_flatten_of_mem (List.mem_map_of_mem h)).length_le

/-- The first `i` frames take no more room than all of them. -/
theorem length_encodeAll_take_le (encode : R → List α) (rs : List R) (i : Nat) :
    (encodeAll encode (rs.take i)).length ≤ (encodeAll encode rs).length := by
  conv_rhs => rw [← List.take_append_drop i rs, encodeAll_append, List.length_append]
  exact Nat.le_add_right _ _

/-- **What a scan returns is what the stream starts with**, if the reader returns only what it has
read. -/
theorem scan_sound {good : R → Prop} {encode : R → List α}
    {read : List α → Except ε (Option (R × List α))}
    (H : ∀ {stream r rest}, read stream = .ok (some (r, rest)) →
      good r ∧ stream = encode r ++ rest) :
    ∀ (fuel : Nat) (stream : List α), (∀ r ∈ (scan read fuel stream).frames, good r) ∧
      stream = encodeAll encode (scan read fuel stream).frames ++ (scan read fuel stream).tail := by
  intro fuel
  induction fuel with
  | zero =>
    intro stream
    exact ⟨fun r hr => (by cases hr), rfl⟩
  | succ fuel ih =>
    intro stream
    unfold scan
    split
    · exact ⟨fun r hr => (by cases hr), rfl⟩
    · exact ⟨fun r hr => (by cases hr), rfl⟩
    · rename_i r rest hread
      obtain ⟨hr, rfl⟩ := H hread
      obtain ⟨hrs, hrest⟩ := ih rest
      refine ⟨List.forall_mem_cons.mpr ⟨hr, hrs⟩, ?_⟩
      rw [encodeAll_cons, List.append_assoc, ← hrest]

/-- Part of a frame: empty, or a proper beginning of one that `good` allows. -/
def Torn (good : R → Prop) (encode : R → List α) (t : List α) : Prop :=
  t = [] ∨ ∃ r, good r ∧ t <+: encode r ∧ t ≠ encode r

theorem Torn.of_isPrefix {good : R → Prop} {encode : R → List α} {t u : List α}
    (h : Torn good encode t) (hu : u <+: t) : Torn good encode u := by
  rcases h with rfl | ⟨r, hr, ht, hne⟩
  · exact Or.inl (List.prefix_nil.mp hu)
  · refine Or.inr ⟨r, hr, hu.trans ht, ?_⟩
    rintro rfl
    exact hne (ht.eq_of_length_le hu.length_le)

/-- A reader for the frames of `encode` that satisfy `good`. -/
structure Reads (good : R → Prop) (encode : R → List α)
    (read : List α → Except ε (Option (R × List α))) : Prop where
  frame : ∀ r rest, good r → read (encode r ++ rest) = .ok (some (r, rest))
  torn : ∀ t, Torn good encode t → read t = .ok none
  nonempty : ∀ r, encode r ≠ []

section Streams

variable {good : R → Prop} {encode : R → List α} {read : List α → Except ε (Option (R × List α))}

/-- A scan reads the frames at the head of a stream, whatever follows them. -/
theorem scan_append (H : Reads good encode read) (rest : List α) (fuel : Nat) :
    ∀ (rs : List R), (∀ r ∈ rs, good r) →
      scan read (rs.length + fuel) (encodeAll encode rs ++ rest) =
        ⟨rs ++ (scan read fuel rest).frames, (scan read fuel rest).tail,
          (scan read fuel rest).error⟩ := by
  intro rs
  induction rs with
  | nil =>
    intro _
    rw [List.length_nil, Nat.zero_add]
    rfl
  | cons r rs ih =>
    intro hgood
    have hrs := ih fun x hx => hgood x (List.mem_cons_of_mem _ hx)
    rw [List.length_cons, Nat.add_right_comm, encodeAll_cons, List.append_assoc, scan,
      H.frame r _ (hgood r List.mem_cons_self)]
    simp only [hrs, List.cons_append]

/-- **A scan returns the frames and stops at the torn one.** -/
theorem scan_frames (H : Reads good encode read) {t : List α} (ht : Torn good encode t)
    (rs : List R) (hgood : ∀ r ∈ rs, good r) (fuel : Nat) (hfuel : rs.length ≤ fuel) :
    scan read fuel (encodeAll encode rs ++ t) = ⟨rs, t, none⟩ := by
  obtain ⟨more, rfl⟩ := Nat.exists_eq_add_of_le hfuel
  have htorn : scan read more t = ⟨[], t, none⟩ := by
    cases more with
    | zero => rfl
    | succ more => simp [scan, H.torn t ht]
  rw [scan_append H t more rs hgood, htorn, List.append_nil]

/-- As many rounds as the stream is long are enough. -/
theorem length_le_stream (H : Reads good encode read) (rs : List R) (t : List α) :
    rs.length ≤ (encodeAll encode rs ++ t).length := by
  have h : 1 * rs.length ≤ (encodeAll encode rs).length :=
    le_length_encodeAll fun r _ => List.length_pos_iff.mpr (H.nonempty r)
  rw [List.length_append]
  omega

/-- **A scan begins with given frames exactly if** the stream begins with their encoding. -/
theorem isPrefix_scan_iff (H : Reads good encode read)
    (hsound : ∀ {s r rest}, read s = .ok (some (r, rest)) → good r ∧ s = encode r ++ rest)
    (rs : List R) (hgood : ∀ r ∈ rs, good r) (stream : List α) :
    rs <+: (scan read stream.length stream).frames ↔ encodeAll encode rs <+: stream := by
  constructor
  · rintro ⟨more, hmore⟩
    have hstream := (scan_sound hsound stream.length stream).2
    rw [← hmore, encodeAll_append, List.append_assoc] at hstream
    exact ⟨_, hstream.symm⟩
  · rintro ⟨rest, rfl⟩
    obtain ⟨fuel, hfuel⟩ := Nat.exists_eq_add_of_le (length_le_stream H rs rest)
    rw [hfuel, scan_append H rest fuel rs hgood]
    exact List.prefix_append _ _

/-- Behind the frames there is a round left for what follows them. -/
theorem length_stream_eq (H : Reads good encode read) (rs : List R) {rest : List α}
    (hrest : rest ≠ []) :
    ∃ fuel, (encodeAll encode rs ++ rest).length = rs.length + (fuel + 1) := by
  have hrs := length_le_stream H rs []
  have hpos := List.length_pos_iff.mpr hrest
  rw [List.append_nil] at hrs
  refine ⟨(encodeAll encode rs ++ rest).length - rs.length - 1, ?_⟩
  rw [List.length_append]
  omega

/-- **A scan returns the frames before the one that the reader refuses**, and its error. -/
theorem scan_refused (H : Reads good encode read) {rest : List α} {e : ε}
    (hread : read rest = .error e) (rs : List R) (hgood : ∀ r ∈ rs, good r) :
    scan read (encodeAll encode rs ++ rest).length (encodeAll encode rs ++ rest) =
      ⟨rs, rest, some e⟩ := by
  have hrest : rest ≠ [] := by
    rintro rfl
    rw [H.torn [] (Or.inl rfl)] at hread
    cases hread
  obtain ⟨fuel, hfuel⟩ := length_stream_eq H rs hrest
  rw [hfuel, scan_append H rest (fuel + 1) rs hgood, scan, hread]
  simp only [List.append_nil]

/-- **A cut leaves whole frames and a torn one**, and every frame that lies before the cut. -/
theorem cut_frames {t : List α} (ht : Torn good encode t) :
    ∀ (rs : List R), (∀ r ∈ rs, good r) → ∀ k, ∃ j u,
      (encodeAll encode rs ++ t).take k = encodeAll encode (rs.take j) ++ u ∧
        Torn good encode u ∧
        ∀ i ≤ rs.length, (encodeAll encode (rs.take i)).length ≤ k → i ≤ j := by
  intro rs
  induction rs with
  | nil =>
    intro _ k
    refine ⟨0, t.take k, rfl, ht.of_isPrefix (List.take_prefix k t), ?_⟩
    intro i hi _
    exact hi
  | cons r rs ih =>
    intro hgood k
    by_cases hk : k < (encode r).length
    · -- the cut falls into the first frame
      refine ⟨0, (encode r).take k, ?_, ?_, ?_⟩
      · rw [encodeAll_cons, List.append_assoc, List.take_append_of_le_length (Nat.le_of_lt hk)]
        rfl
      · refine Or.inr ⟨r, hgood r List.mem_cons_self, List.take_prefix _ _, ?_⟩
        intro h
        have := congrArg List.length h
        rw [List.length_take] at this
        omega
      · intro i _ hlen
        cases i with
        | zero => exact Nat.le_refl 0
        | succ i =>
          rw [List.take_succ_cons, encodeAll_cons, List.length_append] at hlen
          omega
    · obtain ⟨j, u, h₁, h₂, h₃⟩ :=
        ih (fun x hx => hgood x (List.mem_cons_of_mem _ hx)) (k - (encode r).length)
      refine ⟨j + 1, u, ?_, h₂, ?_⟩
      · rw [encodeAll_cons, List.append_assoc, List.take_append, h₁, List.take_succ_cons,
          encodeAll_cons, List.append_assoc, List.take_of_length_le (Nat.le_of_not_lt hk)]
      · intro i hi hlen
        cases i with
        | zero => exact Nat.zero_le _
        | succ i =>
          rw [List.take_succ_cons, encodeAll_cons, List.length_append] at hlen
          exact Nat.succ_le_succ (h₃ i (Nat.le_of_succ_le_succ hi) (by omega))

end Streams

end Framing
