import Mathlib.Logic.Function.Iterate

/-!
# Cyclic redundancy codes

The bitwise algorithm for a reflected generator polynomial.  The register moves down by one place,
and the polynomial is added where a one falls out; a symbol of `k` bits is added at the low end of
the register before it moves down by `k` places.

* `shift_xor`, `shift_injective` — a move is linear, and injective if the highest bit of the
  polynomial is set.
* `digest_eq_pack` — symbols that fit into the register together are added as one number.
* `digest_ne` — **a burst no longer than the register changes it**: two messages that differ only
  between a common beginning and a common end leave different registers.
* `Burst` — two lists that differ only in a window of `n` consecutive places; `Burst.split` cuts
  them at the window.
-/

set_option autoImplicit false

namespace Crc

variable {w k : Nat}

/-- One place down, with the polynomial added where a one falls out. -/
def shift (poly c : BitVec w) : BitVec w :=
  if c.getLsbD 0 then (c >>> 1) ^^^ poly else c >>> 1

/-- A symbol of `k` bits. -/
def absorb (poly c : BitVec w) (d : BitVec k) : BitVec w := (shift poly)^[k] (c ^^^ d.setWidth w)

/-- The register after a message. -/
def digest (poly c : BitVec w) (ds : List (BitVec k)) : BitVec w := ds.foldl (absorb poly) c

/-! ## One move of the register -/

theorem shift_xor (poly a b : BitVec w) :
    shift poly (a ^^^ b) = shift poly a ^^^ shift poly b := by
  unfold shift
  rw [BitVec.getLsbD_xor, BitVec.ushiftRight_xor_distrib]
  cases a.getLsbD 0 <;> cases b.getLsbD 0
  · rfl
  · exact BitVec.xor_assoc _ _ _
  · show (a >>> 1 ^^^ b >>> 1) ^^^ poly = (a >>> 1 ^^^ poly) ^^^ b >>> 1
    rw [BitVec.xor_assoc, BitVec.xor_assoc, BitVec.xor_comm poly]
  · -- two polynomials cancel
    show a >>> 1 ^^^ b >>> 1 = (a >>> 1 ^^^ poly) ^^^ (b >>> 1 ^^^ poly)
    rw [BitVec.xor_comm (b >>> 1), BitVec.xor_assoc, ← BitVec.xor_assoc poly, BitVec.xor_self,
      BitVec.zero_xor]

theorem iterate_shift_xor (poly : BitVec w) (n : Nat) (a b : BitVec w) :
    (shift poly)^[n] (a ^^^ b) = (shift poly)^[n] a ^^^ (shift poly)^[n] b := by
  induction n generalizing a b with
  | zero => rfl
  | succ n ih => rw [Function.iterate_succ_apply, shift_xor, ih]; rfl

theorem msb_ushiftRight_one (a : BitVec w) : (a >>> 1).msb = false := by
  rw [BitVec.msb_eq_getLsbD_last, BitVec.getLsbD_ushiftRight]
  exact BitVec.getLsbD_of_ge a _ (by omega)

theorem eq_zero_of_ushiftRight {a : BitVec w} (hlow : a.getLsbD 0 = false) (h : a >>> 1 = 0#w) :
    a = 0#w := by
  apply BitVec.eq_of_getLsbD_eq
  intro i _
  cases i with
  | zero => simpa using hlow
  | succ i =>
    have hbit := congrArg (fun c : BitVec w => c.getLsbD i) h
    simpa [Nat.add_comm] using hbit

/-- **Only zero moves to zero**: where a one falls out, the polynomial sets the highest bit. -/
theorem shift_eq_zero {poly : BitVec w} (hpoly : poly.msb = true) {a : BitVec w}
    (h : shift poly a = 0#w) : a = 0#w := by
  unfold shift at h
  cases hlow : a.getLsbD 0 with
  | false =>
    rw [hlow] at h
    exact eq_zero_of_ushiftRight hlow h
  | true =>
    rw [hlow, if_pos rfl] at h
    have hmsb := congrArg BitVec.msb h
    rw [BitVec.msb_xor, msb_ushiftRight_one, hpoly] at hmsb
    simp at hmsb

theorem shift_injective {poly : BitVec w} (hpoly : poly.msb = true) :
    Function.Injective (shift poly) := by
  intro a b h
  have hdiff : shift poly (a ^^^ b) = 0#w := by rw [shift_xor, h, BitVec.xor_self]
  exact BitVec.xor_eq_zero_iff.mp (shift_eq_zero hpoly hdiff)

/-- A register whose highest bit is clear comes back when it is moved up and down again. -/
theorem shift_shiftLeft_one (poly : BitVec w) {a : BitVec w} (hmsb : a.msb = false) :
    shift poly (a <<< 1) = a := by
  have hlow : (a <<< 1).getLsbD 0 = false := by simp
  unfold shift
  rw [hlow, if_neg Bool.false_ne_true]
  apply BitVec.eq_of_getLsbD_eq
  intro i hi
  rw [BitVec.getLsbD_ushiftRight, BitVec.getLsbD_shiftLeft]
  by_cases hlast : i + 1 < w
  · simp [Nat.add_comm, hlast]
  · have htop : a.getLsbD i = false := by
      rw [BitVec.msb_eq_getLsbD_last, show w - 1 = i by omega] at hmsb
      exact hmsb
    simp [Nat.add_comm, hlast, htop]

/-- `n` moves give back a register that was moved up by `n` places without loss. -/
theorem iterate_shift_shiftLeft (poly : BitVec w) {a : BitVec w} :
    ∀ {n : Nat}, (∀ i, w ≤ i + n → a.getLsbD i = false) → (shift poly)^[n] (a <<< n) = a
  | 0, _ => by simp
  | n + 1, hclear => by
    have hmsb : (a <<< n).msb = false := by
      rw [BitVec.msb_eq_getLsbD_last, BitVec.getLsbD_shiftLeft]
      by_cases hn : w - 1 < n
      · simp [hn]
      · rw [hclear (w - 1 - n) (by omega)]
        simp
    rw [BitVec.shiftLeft_add, Function.iterate_succ_apply, shift_shiftLeft_one poly hmsb]
    exact iterate_shift_shiftLeft poly fun i hi => hclear i (by omega)

/-! ## Symbols that fit into the register together -/

/-- The number that symbols of `k` bits denote, the first one lowest. -/
def pack (w : Nat) : List (BitVec k) → BitVec w
  | [] => 0#w
  | d :: ds => d.setWidth w ^^^ (pack w ds <<< k)

theorem pack_getLsbD_of_ge {ds : List (BitVec k)} {i : Nat} (h : ds.length * k ≤ i) :
    (pack w ds).getLsbD i = false := by
  induction ds generalizing i with
  | nil => simp [pack]
  | cons d ds ih =>
    rw [List.length_cons, Nat.succ_mul] at h
    have hrest := ih (i := i - k) (by omega)
    have hd : d.getLsbD i = false := BitVec.getLsbD_of_ge d i (by omega)
    simp [pack, hrest, hd]

theorem pack_injective {ds es : List (BitVec k)} (hlen : ds.length = es.length)
    (hfit : ds.length * k ≤ w) (h : pack w ds = pack w es) : ds = es := by
  induction ds generalizing es with
  | nil => exact (List.length_eq_zero_iff.mp hlen.symm).symm
  | cons d ds ih =>
    cases es with
    | nil => cases hlen
    | cons e es =>
      rw [List.length_cons, List.length_cons, Nat.succ_inj] at hlen
      rw [List.length_cons, Nat.succ_mul] at hfit
      have hbit : ∀ i, (pack w (d :: ds)).getLsbD i = (pack w (e :: es)).getLsbD i := by
        intro i
        rw [h]
      have hhead : d = e := by
        apply BitVec.eq_of_getLsbD_eq
        intro i hi
        simpa [pack, hi, show i < w by omega] using hbit i
      have htail : pack w ds = pack w es := by
        apply BitVec.eq_of_getLsbD_eq
        intro i hi
        by_cases hin : i < ds.length * k
        · have hd : ∀ c : BitVec k, c.getLsbD (i + k) = false :=
            fun c => BitVec.getLsbD_of_ge c _ (Nat.le_add_left _ _)
          have hnot : ¬ i + k < k := Nat.not_lt.mpr (Nat.le_add_left _ _)
          simpa [pack, hd, hi, hnot, show i + k < w by omega] using hbit (i + k)
        · rw [pack_getLsbD_of_ge (by omega), pack_getLsbD_of_ge (by rw [← hlen]; omega)]
      rw [hhead, ih hlen (by omega) htail]

/-- **Symbols that fit into the register together are added to it as one number**, and shifted out
together. -/
theorem digest_eq_pack (poly : BitVec w) {ds : List (BitVec k)} (hfit : ds.length * k ≤ w)
    (c : BitVec w) : digest poly c ds = (shift poly)^[ds.length * k] (c ^^^ pack w ds) := by
  induction ds generalizing c with
  | nil => simp [digest, pack]
  | cons d ds ih =>
    rw [List.length_cons, Nat.succ_mul] at hfit ⊢
    -- the later symbols could as well be added `k` places higher, before the first one is done
    have hup : (shift poly)^[k] (pack w ds <<< k) = pack w ds :=
      iterate_shift_shiftLeft poly fun i hi => pack_getLsbD_of_ge (by omega)
    have hstep : digest poly c (d :: ds) = digest poly (absorb poly c d) ds := rfl
    have hfirst : absorb poly c d ^^^ pack w ds = (shift poly)^[k] (c ^^^ pack w (d :: ds)) := by
      rw [pack, ← BitVec.xor_assoc, iterate_shift_xor, hup]
      rfl
    rw [hstep, ih (by omega), hfirst, ← Function.iterate_add_apply]

/-! ## Messages that differ in a burst -/

section Injective

variable {poly : BitVec w} (hpoly : poly.msb = true)

include hpoly

theorem digest_injective (ds : List (BitVec k)) :
    Function.Injective fun c => digest poly c ds := by
  induction ds with
  | nil => exact fun _ _ h => h
  | cons d ds ih =>
    intro a b h
    have habsorb : absorb poly a d = absorb poly b d := ih h
    exact (BitVec.xor_left_inj _).mp ((shift_injective hpoly).iterate k habsorb)

/-- Between symbols that fit into the register together, none is confused with another. -/
theorem digest_window {x y : List (BitVec k)} (hlen : x.length = y.length)
    (hfit : x.length * k ≤ w) {c : BitVec w} (h : digest poly c x = digest poly c y) : x = y := by
  rw [digest_eq_pack poly hfit, digest_eq_pack poly (hlen ▸ hfit), ← hlen] at h
  have hpack := (shift_injective hpoly).iterate _ h
  exact pack_injective hlen hfit ((BitVec.xor_right_inj _).mp hpack)

/-- **A burst no longer than the register changes it**, whatever stands before and behind it. -/
theorem digest_ne {x y : List (BitVec k)} (hlen : x.length = y.length) (hfit : x.length * k ≤ w)
    (hne : x ≠ y) (c : BitVec w) (before after : List (BitVec k)) :
    digest poly c (before ++ (x ++ after)) ≠ digest poly c (before ++ (y ++ after)) := by
  intro h
  simp only [digest, List.foldl_append] at h
  exact hne (digest_window hpoly hlen hfit (digest_injective hpoly after h))

end Injective

/-! ## Bursts -/

variable {α : Type}

/-- All places where the lists differ lie in a window of `n` consecutive ones. -/
def Burst (n : Nat) (a b : List α) : Prop :=
  ∃ start, ∀ j, a[j]? ≠ b[j]? → start ≤ j ∧ j < start + n

/-- The lists agree before and behind the window. -/
theorem Burst.split {n : Nat} {a b : List α} (h : Burst n a b) (hlen : a.length = b.length) :
    ∃ before x y after, a = before ++ (x ++ after) ∧ b = before ++ (y ++ after) ∧
      x.length = y.length ∧ x.length ≤ n := by
  obtain ⟨start, hwindow⟩ := h
  have hbefore : a.take start = b.take start := by
    apply List.ext_getElem?
    intro j
    simp only [List.getElem?_take]
    split
    · by_contra hne
      have := hwindow j hne
      omega
    · rfl
  have hafter : a.drop (start + n) = b.drop (start + n) := by
    apply List.ext_getElem?
    intro j
    rw [List.getElem?_drop, List.getElem?_drop]
    by_contra hne
    have := hwindow _ hne
    omega
  have hcut : ∀ l : List α, l = l.take start ++ ((l.drop start).take n ++ l.drop (start + n)) := by
    intro l
    rw [← List.drop_drop, List.take_append_drop, List.take_append_drop]
  refine ⟨a.take start, (a.drop start).take n, (b.drop start).take n, a.drop (start + n),
    hcut a, ?_, by simp [hlen], List.length_take_le _ _⟩
  rw [hbefore, hafter]
  exact hcut b

end Crc
