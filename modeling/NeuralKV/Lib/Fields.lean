import NeuralKV.Lib.Framing

/-!
# Decoders by fields

A decoder reads a byte string field by field: each field is taken from the front and the rest is
handed on, and a check between two fields may reject what has been read.  Such a decoder is a
`do` block over `Except` made of `take`, `number`, `byte`, `block`, `repeated`, `known` and
`require`.

Each of them has one lemma that says when it succeeds, as an equivalence (`take_ok`, `number_ok`,
and so on).  With `bind_ok` they turn "the decoder returns `r`" into "the bytes are the fields of
`r`", which is soundness and completeness at once.  A decoder with such a lemma reads a prefix-free
code (`eq_of_append_eq`).
-/

set_option autoImplicit false

namespace Fields

open Framing

variable {ε R S : Type}

/-- The next `n` bytes; `e` when there are fewer. -/
def take (e : ε) (n : Nat) (bytes : List UInt8) : Except ε (List UInt8 × List UInt8) :=
  if bytes.length < n then .error e else .ok (bytes.take n, bytes.drop n)

/-- The next `k` bytes as a big-endian number. -/
def number (e : ε) (k : Nat) (bytes : List UInt8) : Except ε (Nat × List UInt8) := do
  let (field, rest) ← take e k bytes
  return (ofBE field, rest)

/-- The next byte. -/
def byte (e : ε) : List UInt8 → Except ε (UInt8 × List UInt8)
  | [] => .error e
  | b :: rest => .ok (b, rest)

/-- A length of `k` bytes and as many bytes as it says. -/
def block (e : ε) (k : Nat) (bytes : List UInt8) : Except ε (List UInt8 × List UInt8) := do
  let (len, rest) ← number e k bytes
  take e len rest

/-- `n` values, one after another. -/
def repeated (read : List UInt8 → Except ε (R × List UInt8)) :
    Nat → List UInt8 → Except ε (List R × List UInt8)
  | 0, bytes => .ok ([], bytes)
  | n + 1, bytes => do
    let (r, rest) ← read bytes
    let (rs, rest) ← repeated read n rest
    return (r :: rs, rest)

/-- A value that must stand for one of `S`. -/
def known (e : ε) (ofWire : R → Option S) (r : R) : Except ε S :=
  match ofWire r with
  | none => .error e
  | some s => .ok s

/-- Go on if `c` holds. -/
def require (e : ε) (c : Prop) [Decidable c] : Except ε Unit := if c then .ok () else .error e

theorem bind_ok {x : Except ε R} {f : R → Except ε S} {s : S} :
    (x >>= f) = .ok s ↔ ∃ r, x = .ok r ∧ f r = .ok s := by
  cases x with
  | error e =>
    constructor
    · intro h
      cases h
    · rintro ⟨r, h, _⟩
      cases h
  | ok r =>
    constructor
    · intro h
      exact ⟨r, rfl, h⟩
    · rintro ⟨_, hr, h⟩
      cases hr
      exact h

theorem bind_error {x : Except ε R} {f : R → Except ε S} {e : ε} :
    (x >>= f) = .error e ↔ x = .error e ∨ ∃ r, x = .ok r ∧ f r = .error e := by
  cases x with
  | error e' =>
    constructor
    · intro h
      cases h
      exact Or.inl rfl
    · rintro (h | ⟨r, h, _⟩)
      · cases h
        rfl
      · cases h
  | ok r =>
    constructor
    · intro h
      exact Or.inr ⟨r, rfl, h⟩
    · rintro (h | ⟨_, hr, h⟩)
      · cases h
      · cases hr
        exact h

theorem mapError_ok {ε' : Type} {f : ε → ε'} {x : Except ε R} {r : R} :
    x.mapError f = .ok r ↔ x = .ok r := by
  cases x <;> simp [Except.mapError]

theorem mapError_error {ε' : Type} {f : ε → ε'} {x : Except ε R} {e : ε'} :
    x.mapError f = .error e ↔ ∃ e', x = .error e' ∧ f e' = e := by
  cases x <;> simp [Except.mapError]

theorem take_ok {e : ε} {n : Nat} {bytes field rest : List UInt8} :
    take e n bytes = .ok (field, rest) ↔ field.length = n ∧ bytes = field ++ rest := by
  unfold take
  constructor
  · intro h
    split at h
    · cases h
    · cases h
      refine ⟨?_, (List.take_append_drop n bytes).symm⟩
      rw [List.length_take]
      omega
  · rintro ⟨rfl, rfl⟩
    rw [if_neg (by simp), List.take_left, List.drop_left]

theorem number_ok {e : ε} {k v : Nat} {bytes rest : List UInt8} :
    number e k bytes = .ok (v, rest) ↔ v < 256 ^ k ∧ bytes = toBE k v ++ rest := by
  simp only [number, bind_ok, Prod.exists, take_ok]
  constructor
  · rintro ⟨field, _, ⟨rfl, rfl⟩, h⟩
    cases h
    exact ⟨ofBE_lt field, by rw [toBE_ofBE]⟩
  · rintro ⟨hv, rfl⟩
    refine ⟨toBE k v, rest, ⟨toBE_length k v, rfl⟩, ?_⟩
    rw [ofBE_toBE_of_lt hv]
    rfl

theorem number_of_length {e : ε} {k : Nat} {bytes : List UInt8} (h : k ≤ bytes.length) :
    number e k bytes = .ok (ofBE (bytes.take k), bytes.drop k) := by
  unfold number take
  rw [if_neg (Nat.not_lt.mpr h)]
  rfl

theorem exists_number {k : Nat} {bytes : List UInt8} (h : k ≤ bytes.length) :
    ∃ v rest, v < 256 ^ k ∧ bytes = toBE k v ++ rest :=
  ⟨_, _, number_ok.mp (number_of_length (e := ()) h)⟩

theorem number_error {e e' : ε} {k : Nat} {bytes : List UInt8} :
    number e k bytes = .error e' ↔ bytes.length < k ∧ e = e' := by
  by_cases h : bytes.length < k
  · unfold number take
    rw [if_pos h]
    constructor
    · intro heq
      cases heq
      exact ⟨h, rfl⟩
    · rintro ⟨_, rfl⟩
      rfl
  · rw [number_of_length (Nat.le_of_not_lt h)]
    simp [h]

theorem byte_ok {e : ε} {b : UInt8} {bytes rest : List UInt8} :
    byte e bytes = .ok (b, rest) ↔ bytes = b :: rest := by
  cases bytes with
  | nil => simp [byte]
  | cons c bytes => simp [byte]

theorem block_ok {e : ε} {k : Nat} {bytes field rest : List UInt8} :
    block e k bytes = .ok (field, rest) ↔
      field.length < 256 ^ k ∧ bytes = toBE k field.length ++ (field ++ rest) := by
  simp only [block, bind_ok, Prod.exists, number_ok, take_ok]
  constructor
  · rintro ⟨_, _, ⟨hlen, rfl⟩, rfl, rfl⟩
    exact ⟨hlen, rfl⟩
  · rintro ⟨hlen, rfl⟩
    exact ⟨_, _, ⟨hlen, rfl⟩, rfl, rfl⟩

theorem known_ok {e : ε} {ofWire : R → Option S} {r : R} {s : S} :
    known e ofWire r = .ok s ↔ ofWire r = some s := by
  unfold known
  split
  · rename_i h
    simp [h]
  · rename_i h
    simp [h]

/-- A counted sequence of what `read` accepts. -/
theorem repeated_ok {read : List UInt8 → Except ε (R × List UInt8)} {good : R → Prop}
    {write : R → List UInt8}
    (hread : ∀ bytes r rest, read bytes = .ok (r, rest) ↔ good r ∧ bytes = write r ++ rest) :
    ∀ {n : Nat} {bytes rest : List UInt8} {rs : List R},
      repeated read n bytes = .ok (rs, rest) ↔
        rs.length = n ∧ (∀ r ∈ rs, good r) ∧ bytes = encodeAll write rs ++ rest := by
  intro n
  induction n with
  | zero =>
    intro bytes rest rs
    constructor
    · intro h
      cases h
      exact ⟨rfl, fun _ hr => (by cases hr), rfl⟩
    · rintro ⟨hlen, _, rfl⟩
      rw [List.length_eq_zero_iff.mp hlen]
      rfl
  | succ n ih =>
    intro bytes rest rs
    simp only [repeated, bind_ok, Prod.exists, hread, ih]
    constructor
    · rintro ⟨r, _, ⟨hr, rfl⟩, rs', _, ⟨hlen, hrs, rfl⟩, h⟩
      cases h
      refine ⟨congrArg Nat.succ hlen, List.forall_mem_cons.mpr ⟨hr, hrs⟩, ?_⟩
      rw [encodeAll_cons, List.append_assoc]
    · rintro ⟨hlen, hrs, rfl⟩
      cases rs with
      | nil => cases hlen
      | cons r rs =>
        obtain ⟨hr, hrs⟩ := List.forall_mem_cons.mp hrs
        refine ⟨r, _, ⟨hr, ?_⟩, rs, rest, ⟨Nat.succ.inj hlen, hrs, rfl⟩, rfl⟩
        rw [encodeAll_cons, List.append_assoc]

/-- **What is read off the front is determined by the bytes**: two values with the same bytes in
front of the two rests are the same, and so are the rests. -/
theorem eq_of_append_eq {read : List UInt8 → Except ε (R × List UInt8)} {good : R → Prop}
    {write : R → List UInt8}
    (hread : ∀ bytes r rest, read bytes = .ok (r, rest) ↔ good r ∧ bytes = write r ++ rest)
    {r r' : R} {rest rest' : List UInt8} (hr : good r) (hr' : good r')
    (h : write r ++ rest = write r' ++ rest') : r = r' ∧ rest = rest' := by
  have h₁ := (hread _ r rest).mpr ⟨hr, rfl⟩
  have h₂ := (hread _ r' rest').mpr ⟨hr', h⟩
  rw [h₁] at h₂
  cases h₂
  exact ⟨rfl, rfl⟩

theorem number_eq_of_append_eq {k v v' : Nat} {rest rest' : List UInt8} (hv : v < 256 ^ k)
    (hv' : v' < 256 ^ k) (h : toBE k v ++ rest = toBE k v' ++ rest') : v = v' ∧ rest = rest' :=
  eq_of_append_eq (fun _ _ _ => number_ok (e := ())) hv hv' h

theorem require_ok {e : ε} {c : Prop} [Decidable c] {u : Unit} :
    require e c = .ok u ↔ c := by
  unfold require
  split
  · rename_i h
    simp [h]
  · rename_i h
    simp [h]

theorem require_error {e e' : ε} {c : Prop} [Decidable c] :
    require e c = .error e' ↔ ¬ c ∧ e = e' := by
  unfold require
  split
  · rename_i h
    simp [h]
  · rename_i h
    simp [h]

end Fields
