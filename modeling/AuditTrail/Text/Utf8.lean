import AuditTrail.Text

/-!
# UTF-8

Octets of a text and text of octets. The strict form knows no surrogates; the tolerant form lets
a lone surrogate stand as three octets, which some stored records hold. Reading gives back what was
written (`decode?_encode`).
-/

namespace AuditTrail.Utf8

/-- Octets of one code point; a surrogate gives three octets like its neighbours. -/
def ofCodePoint (c : CodePoint) : List UInt8 :=
  let n := c.val
  if n < 0x80 then [n.toUInt8]
  else if n < 0x800 then [(0xC0 + n / 64).toUInt8, (0x80 + n % 64).toUInt8]
  else if n < 0x10000 then
    [(0xE0 + n / 4096).toUInt8, (0x80 + n / 64 % 64).toUInt8, (0x80 + n % 64).toUInt8]
  else
    [(0xF0 + n / 262144).toUInt8, (0x80 + n / 4096 % 64).toUInt8, (0x80 + n / 64 % 64).toUInt8,
      (0x80 + n % 64).toUInt8]

def encode (t : Text) : List UInt8 := t.flatMap ofCodePoint

def encode? (t : Text) : Option (List UInt8) := if t.isWellFormed then some (encode t) else none

def continuation? (b : UInt8) : Option Nat :=
  if 0x80 ≤ b.toNat ∧ b.toNat < 0xC0 then some (b.toNat - 0x80) else none

/-- Which code points an octet sequence may spell. -/
inductive Surrogates where
  | refused
  | accepted
deriving DecidableEq

/-- A code point of at least `low`, the shortest-form bound of its length. -/
def checked? (mode : Surrogates) (low n : Nat) : Option CodePoint :=
  if h : n < 0x110000 then
    let c : CodePoint := ⟨n, h⟩
    if n < low then none
    else if c.isSurrogate && mode == .refused then none
    else some c
  else none

/-- The first bits that a leading octet gives, the count of octets that follow it, and the least
code point of that length. -/
def lead? (a : UInt8) : Option (Nat × Nat × Nat) :=
  if a.toNat < 0x80 then some (a.toNat, 0, 0)
  else if a.toNat < 0xC0 then none
  else if a.toNat < 0xE0 then some (a.toNat - 0xC0, 1, 0x80)
  else if a.toNat < 0xF0 then some (a.toNat - 0xE0, 2, 0x800)
  else some (a.toNat - 0xF0, 3, 0x10000)

/-- Adds the bits of so many continuation octets, and gives the octets after them. -/
def join? : Nat → Nat → List UInt8 → Option (Nat × List UInt8)
  | 0, n, rest => some (n, rest)
  | _ + 1, _, [] => none
  | count + 1, n, b :: rest =>
    match continuation? b with
    | some d => join? count (n * 64 + d) rest
    | none => none

/-- The code point that opens a sequence of octets, and the octets after it. -/
def next? (mode : Surrogates) : List UInt8 → Option (CodePoint × List UInt8)
  | [] => none
  | a :: rest =>
    match lead? a with
    | none => none
    | some (bits, count, low) =>
      match join? count bits rest with
      | none => none
      | some (n, rest) => (checked? mode low n).map (·, rest)

/-- Reads at most `fuel` code points into `done`, which holds them in reverse. -/
def decodeLoop (mode : Surrogates) : Nat → List UInt8 → Text → Option Text
  | _, [], done => some done.reverse
  | 0, _ :: _, _ => none
  | fuel + 1, bytes, done =>
    match next? mode bytes with
    | none => none
    | some (c, rest) => decodeLoop mode fuel rest (c :: done)

/-- The text that octets spell, if they are well formed. -/
def decode? (mode : Surrogates) (bytes : List UInt8) : Option Text :=
  decodeLoop mode bytes.length bytes []

private theorem continuation?_eq (n : Nat) : continuation? (0x80 + n % 64).toUInt8 = some (n % 64) := by
  have h : (0x80 + n % 64).toUInt8.toNat = 0x80 + n % 64 := by
    rw [UInt8.toNat_ofNat']
    omega
  rw [continuation?, h, if_pos (by omega), Nat.add_sub_cancel_left]

def allows (mode : Surrogates) (c : CodePoint) : Bool := !c.isSurrogate || mode == .accepted

private theorem checked?_eq {mode : Surrogates} {low n : Nat} {c : CodePoint} (hm : allows mode c = true)
    (hc : c.val = n) (hn : low ≤ n) : checked? mode low n = some c := by
  subst hc
  obtain ⟨v, hv⟩ := c
  simp only at hn
  rw [checked?]
  simp only [hv, dif_pos]
  rw [if_neg (by omega)]
  cases mode with
  | accepted => simp
  | refused =>
    simp only [allows, Bool.or_eq_true, Bool.not_eq_true', beq_iff_eq, reduceCtorEq, or_false] at hm
    rw [hm]
    simp

theorem toNat_toUInt8 {n : Nat} (h : n < 256) : n.toUInt8.toNat = n := by
  rw [UInt8.toNat_ofNat']
  omega

private theorem join?_continuation (count n d : Nat) (rest : List UInt8) :
    join? (count + 1) n ((0x80 + d % 64).toUInt8 :: rest) = join? count (n * 64 + d % 64) rest := by
  rw [join?, continuation?_eq]

private theorem next?_of_join? {mode : Surrogates} {a : UInt8} {bits count low n : Nat} {rest after : List UInt8}
    {c : CodePoint} (ha : lead? a = some (bits, count, low)) (hj : join? count bits rest = some (n, after))
    (hm : allows mode c = true) (hc : c.val = n) (hn : low ≤ n) : next? mode (a :: rest) = some (c, after) := by
  simp only [next?, ha, hj, checked?_eq hm hc hn, Option.map_some]

theorem next?_ofCodePoint {mode : Surrogates} {c : CodePoint} (hm : allows mode c = true) (rest : List UInt8) :
    next? mode (ofCodePoint c ++ rest) = some (c, rest) := by
  have hlt := c.isLt
  rw [ofCodePoint]
  by_cases h1 : c.val < 0x80
  · have ha : c.val.toUInt8.toNat = c.val := toNat_toUInt8 (by omega)
    have hl : lead? c.val.toUInt8 = some (c.val, 0, 0) := by rw [lead?, ha, if_pos h1]
    rw [if_pos h1, List.singleton_append]
    exact next?_of_join? hl rfl hm rfl (Nat.zero_le _)
  · by_cases h2 : c.val < 0x800
    · have ha : (0xC0 + c.val / 64).toUInt8.toNat = 0xC0 + c.val / 64 := toNat_toUInt8 (by omega)
      have hl : lead? (0xC0 + c.val / 64).toUInt8 = some (c.val / 64, 1, 0x80) := by
        rw [lead?, ha, if_neg (by omega), if_neg (by omega), if_pos (by omega), Nat.add_sub_cancel_left]
      rw [if_neg h1, if_pos h2, List.cons_append, List.singleton_append]
      refine next?_of_join? hl ?_ hm rfl (by omega)
      rw [join?_continuation, join?, Nat.mul_comm, Nat.div_add_mod]
    · by_cases h3 : c.val < 0x10000
      · have ha : (0xE0 + c.val / 4096).toUInt8.toNat = 0xE0 + c.val / 4096 := toNat_toUInt8 (by omega)
        have hl : lead? (0xE0 + c.val / 4096).toUInt8 = some (c.val / 4096, 2, 0x800) := by
          rw [lead?, ha, if_neg (by omega), if_neg (by omega), if_neg (by omega), if_pos (by omega),
            Nat.add_sub_cancel_left]
        have hv : (c.val / 4096 * 64 + c.val / 64 % 64) * 64 + c.val % 64 = c.val := by omega
        rw [if_neg h1, if_neg h2, if_pos h3, List.cons_append, List.cons_append, List.singleton_append]
        refine next?_of_join? hl ?_ hm rfl (by omega)
        rw [join?_continuation, join?_continuation, join?, hv]
      · have ha : (0xF0 + c.val / 262144).toUInt8.toNat = 0xF0 + c.val / 262144 := toNat_toUInt8 (by omega)
        have hl : lead? (0xF0 + c.val / 262144).toUInt8 = some (c.val / 262144, 3, 0x10000) := by
          rw [lead?, ha, if_neg (by omega), if_neg (by omega), if_neg (by omega), if_neg (by omega),
            Nat.add_sub_cancel_left]
        have hv : ((c.val / 262144 * 64 + c.val / 4096 % 64) * 64 + c.val / 64 % 64) * 64 + c.val % 64 = c.val := by
          omega
        rw [if_neg h1, if_neg h2, if_neg h3, List.cons_append, List.cons_append, List.cons_append,
          List.singleton_append]
        refine next?_of_join? hl ?_ hm rfl (by omega)
        rw [join?_continuation, join?_continuation, join?_continuation, join?, hv]

private theorem ofCodePoint_ne_nil (c : CodePoint) : ofCodePoint c ≠ [] := by
  rw [ofCodePoint]
  split
  · exact List.cons_ne_nil _ _
  · split
    · exact List.cons_ne_nil _ _
    · split
      · exact List.cons_ne_nil _ _
      · exact List.cons_ne_nil _ _

theorem encode_cons (c : CodePoint) (t : Text) : encode (c :: t) = ofCodePoint c ++ encode t := by
  rw [encode, List.flatMap_cons, encode]

private theorem decodeLoop_encode {mode : Surrogates} {t : Text} (h : t.all (allows mode) = true) {fuel : Nat}
    (hf : t.length ≤ fuel) (done : Text) : decodeLoop mode fuel (encode t) done = some (done.reverse ++ t) := by
  induction t generalizing fuel done with
  | nil =>
    rw [encode, List.flatMap_nil, decodeLoop, List.append_nil]
  | cons c t ih =>
    rw [List.all_cons, Bool.and_eq_true] at h
    cases fuel with
    | zero => exact absurd hf (by simp)
    | succ fuel =>
      cases hb : ofCodePoint c with
      | nil => exact absurd hb (ofCodePoint_ne_nil c)
      | cons b bs =>
        have hn := next?_ofCodePoint h.1 (encode t)
        rw [hb] at hn
        rw [List.cons_append] at hn
        rw [encode_cons, hb, List.cons_append, decodeLoop, hn]
        · simp only
          rw [ih h.2 (Nat.le_of_succ_le_succ hf), List.reverse_cons, List.append_assoc, List.singleton_append]
        · exact fun e => absurd e (List.cons_ne_nil _ _)

theorem length_le_length_encode (t : Text) : t.length ≤ (encode t).length := by
  induction t with
  | nil => exact Nat.zero_le _
  | cons c t ih =>
    have hp : 0 < (ofCodePoint c).length := List.length_pos_iff.2 (ofCodePoint_ne_nil c)
    rw [encode_cons, List.length_cons, List.length_append]
    omega

/-- Octets of a text spell that text. -/
theorem decode?_encode {mode : Surrogates} {t : Text} (h : t.all (allows mode) = true) :
    decode? mode (encode t) = some t := by
  rw [decode?, decodeLoop_encode h (length_le_length_encode t), List.reverse_nil, List.nil_append]

/-- Two texts never have the same octets. -/
theorem encode_injective {s t : Text} (h : encode s = encode t) : s = t := by
  have ha : ∀ u : Text, u.all (allows .accepted) = true := fun u =>
    List.all_eq_true.mpr fun _ _ => Bool.or_true _
  have hd := decode?_encode (ha s)
  rw [h, decode?_encode (ha t), Option.some.injEq] at hd
  exact hd.symm

end AuditTrail.Utf8
