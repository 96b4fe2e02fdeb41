import Mathlib.Data.List.Lex
import Mathlib.Order.Cover
import Mathlib.Tactic.Positivity
import Mathlib.Tactic.Ring

/-!
# Byte strings in lexicographic order

Keys that are compared byte by byte, a prefix before its extensions.  Two facts make such
an order an index: the strings that begin with a prefix are a half-open range, and a number
written with its most significant byte first sorts where the number does.

* `prefix_iff_range` — the strings that begin with `p ++ [a]` are those from `p ++ [a]` up
  to `p ++ [b]`, when `b` is the letter after `a`.
* `ofBigEndian_bigEndian` — the numeral reads back as the number.
* `bigEndian_lt_bigEndian` — the order of the numerals is the order of the numbers.
-/

variable {b : UInt8} {m : ℕ}

namespace ByteOrder

open List

/-- Bytes are ordered as the numbers they are. -/
instance byteOrder : LinearOrder UInt8 where
  le_refl := UInt8.le_refl
  le_trans _ _ _ := UInt8.le_trans
  lt_iff_le_not_ge _ _ := by
    simp only [UInt8.lt_iff_toNat_lt, UInt8.le_iff_toNat_le]
    omega
  le_antisymm _ _ := UInt8.le_antisymm
  le_total := UInt8.le_total
  toDecidableLE := inferInstance
  toDecidableEq := inferInstance
  toDecidableLT := inferInstance

theorem toNat_lt_of_ne (h : b ≠ 255) : b.toNat < 255 := by
  have hlt := b.toNat_lt
  have hne : b.toNat ≠ (255 : UInt8).toNat := fun heq => h (UInt8.toNat_inj.1 heq)
  have h255 : (255 : UInt8).toNat = 255 := rfl
  omega

theorem covBy_add_one (h : b ≠ 255) : b ⋖ b + 1 := by
  have hlt := toNat_lt_of_ne h
  have hsucc : (b + 1).toNat = b.toNat + 1 := by
    rw [UInt8.toNat_add, UInt8.toNat_one]
    omega
  refine ⟨?_, fun c hbc hcb => ?_⟩
  · rw [UInt8.lt_iff_toNat_lt, hsucc]
    exact Nat.lt_succ_self _
  · rw [UInt8.lt_iff_toNat_lt] at hbc hcb
    omega

/-! ## Prefixes are ranges -/

section Prefix

variable {α : Type*} [LinearOrder α]
variable {l m p x : List α} {a b : α}

theorem cons_lt_cons : a :: l < b :: m ↔ a < b ∨ a = b ∧ l < m :=
  cons_lt_cons_iff

theorem cons_le_cons : a :: l ≤ b :: m ↔ a < b ∨ a = b ∧ l ≤ m := by
  rw [← not_lt, cons_lt_cons, ← not_lt]
  constructor
  · intro h
    rcases lt_trichotomy a b with hab | rfl | hab
    · exact .inl hab
    · exact .inr ⟨rfl, fun hlm => h (.inr ⟨rfl, hlm⟩)⟩
    · exact absurd (.inl hab) h
  · rintro (hab | ⟨rfl, hlm⟩) (hba | ⟨heq, hml⟩)
    · exact lt_asymm hab hba
    · exact hab.ne heq.symm
    · exact lt_irrefl _ hba
    · exact hlm hml

theorem not_lt_nil (l : List α) : ¬ l < [] :=
  List.not_lt_nil l

theorem append_lt_append : p ++ l < p ++ m ↔ l < m := by
  induction p with
  | nil => rfl
  | cons a p ih => simp [ih]

theorem append_le_append : p ++ l ≤ p ++ m ↔ l ≤ m := by
  rw [← not_lt, append_lt_append, not_lt]

theorem le_append (l x : List α) : l ≤ l ++ x := by
  have h : l ++ [] ≤ l ++ x := append_le_append.2 (not_lt.1 (not_lt_nil x))
  rwa [append_nil] at h

theorem prefix_iff_range (hab : a ⋖ b) : p ++ [a] ≤ x ∧ x < p ++ [b] ↔ p ++ [a] <+: x := by
  induction p generalizing x with
  | nil =>
    cases x with
    | nil => simp [← not_lt]
    | cons y ys =>
      have hnil : [] ≤ ys := not_lt.1 (not_lt_nil ys)
      simp only [nil_append, cons_le_cons, cons_lt_cons, not_lt_nil, and_false, or_false,
        hnil, and_true, cons_prefix_cons, nil_prefix]
      constructor
      · rintro ⟨h | h, hy⟩
        · exact absurd hy (hab.2 h)
        · exact h
      · rintro rfl
        exact ⟨.inr rfl, hab.1⟩
  | cons c p ih =>
    cases x with
    | nil => simp [← not_lt]
    | cons y ys =>
      simp only [cons_append, cons_le_cons, cons_lt_cons, cons_prefix_cons, ← ih]
      constructor
      · rintro ⟨h | ⟨rfl, h⟩, h' | ⟨heq, h'⟩⟩
        · exact absurd h (lt_asymm h')
        · exact absurd heq.symm h.ne
        · exact absurd h' (lt_irrefl _)
        · exact ⟨rfl, h, h'⟩
      · rintro ⟨rfl, h, h'⟩
        exact ⟨.inr ⟨rfl, h⟩, .inr ⟨rfl, h'⟩⟩

/-- A string that goes on with the least letter sorts where it stood, against strings without
that letter. -/
theorem append_least_lt (ha : ∀ c, a ≤ c) (hm : a ∉ m) : l ++ a :: x < m ↔ l < m := by
  induction l generalizing m with
  | nil =>
    cases m with
    | nil => exact iff_of_false (not_lt_nil _) (not_lt_nil _)
    | cons c m =>
      refine iff_of_true ?_ (nil_lt_cons c m)
      have hne : a ≠ c := fun heq => hm (heq ▸ mem_cons_self)
      exact cons_lt_cons.2 (.inl (lt_of_le_of_ne (ha c) hne))
  | cons b l ih =>
    cases m with
    | nil => exact iff_of_false (not_lt_nil _) (not_lt_nil _)
    | cons c m =>
      rw [cons_append, cons_lt_cons, cons_lt_cons, ih fun h => hm (mem_cons_of_mem c h)]

/-- The least letter, used to end strings it does not occur in, keeps their order. -/
theorem append_least_lt_append_least (ha : ∀ c, a ≤ c) {y : List α} (hl : a ∉ l) (hm : a ∉ m) :
    l ++ a :: x < m ++ a :: y ↔ l < m ∨ l = m ∧ x < y := by
  rcases lt_trichotomy l m with hlt | rfl | hgt
  · refine iff_of_true ?_ (.inl hlt)
    exact lt_of_lt_of_le ((append_least_lt ha hm).2 hlt) (le_append _ _)
  · rw [append_lt_append, cons_lt_cons]
    simp
  refine iff_of_false (fun h => ?_) ?_
  · have hlt : m ++ a :: y < l := (append_least_lt ha hl).2 hgt
    exact absurd (lt_of_lt_of_le hlt (le_append _ _)) (lt_asymm h)
  · rintro (h | ⟨rfl, -⟩)
    · exact lt_asymm h hgt
    · exact lt_irrefl _ hgt

end Prefix

/-! ## Numerals with the most significant byte first -/

/-- The number in `width` bytes. -/
def bigEndian : ℕ → ℕ → List UInt8
  | 0, _ => []
  | width + 1, n => UInt8.ofNat (n / 256 ^ width) :: bigEndian width (n % 256 ^ width)

/-- The number the bytes are. -/
def ofBigEndian (bytes : List UInt8) : ℕ :=
  bytes.foldl (fun acc b => acc * 256 + b.toNat) 0

@[simp] theorem length_bigEndian (width n : ℕ) : (bigEndian width n).length = width := by
  induction width generalizing n with
  | zero => rfl
  | succ width ih => simp [bigEndian, ih]

variable {width n : ℕ}

theorem toNat_ofNat_div (h : n < 256 ^ (width + 1)) :
    (UInt8.ofNat (n / 256 ^ width)).toNat = n / 256 ^ width := by
  refine UInt8.toNat_ofNat_of_lt' ?_
  rw [pow_succ'] at h
  exact (Nat.div_lt_iff_lt_mul (by positivity)).2 h

theorem foldl_bigEndian (h : n < 256 ^ width) (acc : ℕ) :
    (bigEndian width n).foldl (fun acc b => acc * 256 + b.toNat) acc = acc * 256 ^ width + n := by
  induction width generalizing n acc with
  | zero =>
    obtain rfl : n = 0 := by simpa using h
    simp [bigEndian]
  | succ width ih =>
    rw [bigEndian, foldl_cons, ih (Nat.mod_lt _ (by positivity)), toNat_ofNat_div h]
    have hdiv := Nat.div_add_mod n (256 ^ width)
    calc (acc * 256 + n / 256 ^ width) * 256 ^ width + n % 256 ^ width
        = acc * 256 ^ (width + 1) + (256 ^ width * (n / 256 ^ width) + n % 256 ^ width) := by ring
      _ = acc * 256 ^ (width + 1) + n := by rw [hdiv]

theorem ofBigEndian_bigEndian (h : n < 256 ^ width) : ofBigEndian (bigEndian width n) = n := by
  simpa [ofBigEndian] using foldl_bigEndian h 0

theorem bigEndian_injective (hm : m < 256 ^ width) (hn : n < 256 ^ width)
    (h : bigEndian width m = bigEndian width n) : m = n := by
  rw [← ofBigEndian_bigEndian hm, h, ofBigEndian_bigEndian hn]

theorem bigEndian_lt_of_lt (hn : n < 256 ^ width) (h : m < n) :
    bigEndian width m < bigEndian width n := by
  induction width generalizing m n with
  | zero => simp at hn; omega
  | succ width ih =>
    have hpos : 0 < 256 ^ width := by positivity
    have hm : m < 256 ^ (width + 1) := h.trans hn
    rw [bigEndian, bigEndian, cons_lt_cons, UInt8.lt_iff_toNat_lt, toNat_ofNat_div hm,
      toNat_ofNat_div hn]
    -- the leading bytes decide, or they agree and the rest does
    rcases (Nat.div_le_div_right (c := 256 ^ width) h.le).lt_or_eq with hlt | heq
    · exact .inl hlt
    refine .inr ⟨by rw [heq], ih (Nat.mod_lt _ hpos) ?_⟩
    have h₁ := Nat.div_add_mod m (256 ^ width)
    have h₂ := Nat.div_add_mod n (256 ^ width)
    rw [heq] at h₁
    omega

theorem bigEndian_lt_bigEndian (hm : m < 256 ^ width) (hn : n < 256 ^ width) :
    bigEndian width m < bigEndian width n ↔ m < n := by
  constructor
  · intro h
    by_contra hle
    rcases (not_lt.1 hle).lt_or_eq with hlt | rfl
    · exact lt_asymm h (bigEndian_lt_of_lt hm hlt)
    · exact lt_irrefl _ h
  · exact bigEndian_lt_of_lt hn

end ByteOrder
