import AuditTrail.Digest.Sha256
import Mathlib.Algebra.GroupWithZero.Nat

/-!
# Hexadecimal digests

Hexadecimal digits at a width determine the number that they were written of, as far as the width
reaches (`hex_injective`), and the digits of a digest determine the digest (`hexDigest_injective`).
-/

namespace AuditTrail

namespace Text

theorem val_ofHexDigit {d : Nat} (h : d < 16) :
    (CodePoint.ofHexDigit d).val = if d < 10 then 48 + d else 87 + d := by
  rw [CodePoint.ofHexDigit]
  exact CodePoint.ofNat_val (by split <;> omega)

theorem val_of_mem_hex {width n : Nat} {c : CodePoint} (h : c ∈ hex width n) :
    48 ≤ c.val ∧ c.val ≤ 57 ∨ 97 ≤ c.val ∧ c.val ≤ 102 := by
  induction width generalizing n with
  | zero => exact absurd h List.not_mem_nil
  | succ w ih =>
    rcases List.mem_append.mp h with hm | hm
    · exact ih hm
    · rw [List.mem_singleton.mp hm, val_ofHexDigit (Nat.mod_lt n (by decide))]
      split <;> omega

theorem hex_injective {width m n : Nat} (hm : m < 16 ^ width) (hn : n < 16 ^ width)
    (h : hex width m = hex width n) : m = n := by
  induction width generalizing m n with
  | zero =>
    rw [Nat.pow_zero] at hm hn
    omega
  | succ w ih =>
    obtain ⟨hf, hd⟩ := List.append_inj' h rfl
    have hq : m / 16 = n / 16 := by
      apply ih _ _ hf
      · rw [Nat.div_lt_iff_lt_mul (by decide), ← Nat.pow_succ]
        exact hm
      · rw [Nat.div_lt_iff_lt_mul (by decide), ← Nat.pow_succ]
        exact hn
    have hv := congrArg CodePoint.val (List.singleton_inj.mp hd)
    rw [val_ofHexDigit (Nat.mod_lt m (by decide)), val_ofHexDigit (Nat.mod_lt n (by decide))] at hv
    have hr : m % 16 = n % 16 := by
      have h1 := Nat.mod_lt m (show 0 < 16 by decide)
      have h2 := Nat.mod_lt n (show 0 < 16 by decide)
      split at hv <;> split at hv <;> omega
    omega

end Text

namespace Sha256

theorem State.hex_injective {s t : State} (h : s.hex = t.hex) : s = t := by
  obtain ⟨a, b, c, d, e, f, g, i⟩ := s
  obtain ⟨a', b', c', d', e', f', g', i'⟩ := t
  have hw : ∀ {v w : UInt32}, Text.hex 8 v.toNat = Text.hex 8 w.toNat → v = w := fun he =>
    UInt32.toNat_inj.mp (Text.hex_injective (UInt32.toNat_lt _) (UInt32.toNat_lt _) he)
  have hl : ∀ v w : UInt32, (Text.hex 8 v.toNat).length = (Text.hex 8 w.toNat).length := fun v w => by
    rw [Text.length_hex, Text.length_hex]
  simp only [State.hex, List.flatMap_cons, List.flatMap_nil, List.append_nil] at h
  obtain ⟨ha, h⟩ := List.append_inj h (hl _ _)
  obtain ⟨hb, h⟩ := List.append_inj h (hl _ _)
  obtain ⟨hc, h⟩ := List.append_inj h (hl _ _)
  obtain ⟨hd, h⟩ := List.append_inj h (hl _ _)
  obtain ⟨he, h⟩ := List.append_inj h (hl _ _)
  obtain ⟨hf, h⟩ := List.append_inj h (hl _ _)
  obtain ⟨hg, hi⟩ := List.append_inj h (hl _ _)
  rw [hw ha, hw hb, hw hc, hw hd, hw he, hw hf, hw hg, hw hi]

theorem hexDigest_injective {bs cs : List UInt8} (h : hexDigest bs = hexDigest cs) : digest bs = digest cs :=
  State.hex_injective h

theorem val_of_mem_hexDigest {bs : List UInt8} {c : CodePoint} (h : c ∈ hexDigest bs) :
    48 ≤ c.val ∧ c.val ≤ 57 ∨ 97 ≤ c.val ∧ c.val ≤ 102 := by
  obtain ⟨w, -, hw⟩ := List.mem_flatMap.mp h
  exact Text.val_of_mem_hex hw

end Sha256

end AuditTrail
