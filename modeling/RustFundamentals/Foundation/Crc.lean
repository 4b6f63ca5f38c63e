import Mathlib.Logic.Function.Iterate

/-!
# Cyclic redundancy checks

A reflected CRC of any width: the register is shifted out one place for each message bit, and the
polynomial is added when a one leaves it. The register is linear in what is fed to it, and when
the polynomial has its constant term (the top bit of a reflected one) no two registers meet after
the same bits. So two messages that differ only within as many consecutive bits as the register
has never end in the same register (`feeds_ne_of_burst`).
-/

namespace Foundation.Crc

variable {w : Nat} (poly : BitVec w)

/-- The register moved one place on. -/
def shiftOut (s : BitVec w) : BitVec w :=
  if s.getLsbD 0 then (s >>> 1) ^^^ poly else s >>> 1

/-- A bit at the low end of the register. -/
def lowBit (w : Nat) (b : Bool) : BitVec w := if b then 1#w else 0#w

/-- One message bit. -/
def feed (s : BitVec w) (b : Bool) : BitVec w := shiftOut poly (s ^^^ lowBit w b)

/-- A message, first bit first. -/
def feeds (s : BitVec w) (bits : List Bool) : BitVec w := bits.foldl (feed poly) s

/-- The bit-serial CRC of a message: the register starts at `init`, and `final` is added to what
the message leaves in it. -/
def checksum (init final : BitVec w) (bits : List Bool) : BitVec w := feeds poly init bits ^^^ final

/-- Bits side by side in a register, the first one lowest. -/
def ofBits (w : Nat) : List Bool → BitVec w
  | [] => 0#w
  | b :: bs => lowBit w b ^^^ (ofBits w bs <<< 1)

/-! ## The register is linear -/

theorem shiftOut_xor (a b : BitVec w) :
    shiftOut poly (a ^^^ b) = shiftOut poly a ^^^ shiftOut poly b := by
  have hcancel : ∀ x y p : BitVec w, x ^^^ y = x ^^^ p ^^^ (y ^^^ p) := by
    intro x y p
    rw [BitVec.xor_assoc x p, ← BitVec.xor_assoc p y, BitVec.xor_comm p y, BitVec.xor_assoc y,
      BitVec.xor_self, BitVec.xor_zero]
  simp only [shiftOut, BitVec.getLsbD_xor, BitVec.ushiftRight_xor_distrib]
  cases a.getLsbD 0 <;> cases b.getLsbD 0
  · rfl
  · exact BitVec.xor_assoc _ _ _
  · show (a >>> 1) ^^^ (b >>> 1) ^^^ poly = (a >>> 1) ^^^ poly ^^^ (b >>> 1)
    rw [BitVec.xor_assoc, BitVec.xor_comm (b >>> 1), ← BitVec.xor_assoc]
  · exact hcancel _ _ _

theorem iterate_shiftOut_xor (k : Nat) (a b : BitVec w) :
    (shiftOut poly)^[k] (a ^^^ b) = (shiftOut poly)^[k] a ^^^ (shiftOut poly)^[k] b := by
  induction k generalizing a b with
  | zero => rfl
  | succ k ih =>
    simp only [Function.iterate_succ_apply]
    rw [shiftOut_xor, ih]

/-- While the bits that leave are zeros, the register only moves down. -/
theorem iterate_shiftOut_of_low_clear {k : Nat} {x : BitVec w}
    (h : ∀ i < k, x.getLsbD i = false) : (shiftOut poly)^[k] x = x >>> k := by
  induction k with
  | zero => simp
  | succ k ih =>
    have hlow : (x >>> k).getLsbD 0 = false := by simpa using h k (by omega)
    rw [Function.iterate_succ_apply', ih fun i hi => h i (by omega), shiftOut, hlow,
      BitVec.shiftRight_add]
    rfl

/-- **The step of a table**: the low bits through the register, the others moved down. -/
theorem iterate_shiftOut_split {k : Nat} {mask : BitVec w}
    (hmask : ∀ i < w, mask.getLsbD i = decide (i < k)) (x : BitVec w) :
    (shiftOut poly)^[k] x = (x >>> k) ^^^ (shiftOut poly)^[k] (x &&& mask) := by
  have hsplit : x = (x &&& ~~~mask) ^^^ (x &&& mask) := by
    apply BitVec.eq_of_getLsbD_eq
    intro i hi
    simp only [BitVec.getLsbD_xor, BitVec.getLsbD_and, BitVec.getLsbD_not, hi, decide_true,
      Bool.true_and]
    cases x.getLsbD i <;> cases mask.getLsbD i <;> rfl
  have hclear : ∀ i < k, (x &&& ~~~mask).getLsbD i = false := by
    intro i hi
    by_cases hw : i < w
    · simp [hmask i hw, hi]
    · exact BitVec.getLsbD_of_ge _ _ (by omega)
  have hhigh : (x &&& ~~~mask) >>> k = x >>> k := by
    apply BitVec.eq_of_getLsbD_eq
    intro i _
    simp only [BitVec.getLsbD_ushiftRight, BitVec.getLsbD_and, BitVec.getLsbD_not]
    by_cases hw : k + i < w
    · rw [hmask _ hw]
      simp [hw]
    · simp [BitVec.getLsbD_of_ge x (k + i) (by omega)]
  conv => lhs; rw [hsplit]
  rw [iterate_shiftOut_xor, iterate_shiftOut_of_low_clear poly hclear, hhigh]

/-! ## The bits of a register -/

theorem lowBit_getLsbD (hw : 0 < w) (b : Bool) (i : Nat) :
    (lowBit w b).getLsbD i = (decide (i = 0) && b) := by
  cases b with
  | false => simp [lowBit]
  | true => simp [lowBit, BitVec.getLsbD_one, hw]

theorem ofBits_getLsbD {bs : List Bool} (h : bs.length ≤ w) (i : Nat) :
    (ofBits w bs).getLsbD i = bs[i]?.getD false := by
  induction bs generalizing i with
  | nil => simp [ofBits]
  | cons b bs ih =>
    rw [List.length_cons] at h
    rw [ofBits, BitVec.getLsbD_xor, lowBit_getLsbD (by omega), BitVec.getLsbD_shiftLeft]
    cases i with
    | zero => simp
    | succ i =>
      simp only [Nat.add_sub_cancel, ih (by omega), List.getElem?_cons_succ]
      by_cases hi : i + 1 < w
      · simp [hi]
      · simp [hi, List.getElem?_eq_none (by omega : bs.length ≤ i)]

theorem ofBits_inj {bs cs : List Bool} (hlen : bs.length = cs.length) (h : bs.length ≤ w)
    (heq : ofBits w bs = ofBits w cs) : bs = cs := by
  apply List.ext_getElem hlen
  intro i hi hi'
  have hbit := congrArg (BitVec.getLsbD · i) heq
  simp only [ofBits_getLsbD h, ofBits_getLsbD (hlen ▸ h)] at hbit
  simpa [hi, hi'] using hbit

/-- A register whose top bit is clear is shifted up and out again. -/
theorem shiftOut_shiftLeft {x : BitVec w} (h : x.getLsbD (w - 1) = false) :
    shiftOut poly (x <<< 1) = x := by
  have hlow : (x <<< 1).getLsbD 0 = false := by simp
  rw [shiftOut, hlow]
  apply BitVec.eq_of_getLsbD_eq
  intro i hi
  by_cases htop : 1 + i < w
  · simp [htop, BitVec.getLsbD_eq_getElem hi]
  · have hi' : i = w - 1 := by omega
    subst hi'
    simp [htop, h]

/-- Few enough bits can be added to the register all at once. -/
theorem feeds_eq_iterate {bits : List Bool} (h : bits.length ≤ w) (s : BitVec w) :
    feeds poly s bits = (shiftOut poly)^[bits.length] (s ^^^ ofBits w bits) := by
  induction bits generalizing s with
  | nil => simp [feeds, ofBits]
  | cons b bs ih =>
    rw [List.length_cons] at h
    have htop : (ofBits w bs).getLsbD (w - 1) = false := by
      rw [ofBits_getLsbD (by omega), List.getElem?_eq_none (by omega)]
      rfl
    have hfirst : feeds poly s (b :: bs) = feeds poly (feed poly s b) bs := rfl
    rw [hfirst, ih (by omega), List.length_cons, Function.iterate_succ_apply, ofBits,
      ← BitVec.xor_assoc, shiftOut_xor, shiftOut_shiftLeft poly htop, feed]

/-! ## Registers that never meet -/

section Burst

variable (hpoly : poly.getLsbD (w - 1) = true)

include hpoly

theorem shiftOut_injective : Function.Injective (shiftOut poly) := by
  have hkernel : ∀ x : BitVec w, shiftOut poly x = 0#w → x = 0#w := by
    intro x hx
    have hw : 0 < w := by
      by_contra hzero
      rw [BitVec.getLsbD_of_ge poly _ (by omega)] at hpoly
      cases hpoly
    unfold shiftOut at hx
    split at hx
    · -- the polynomial's top bit is still there
      have hbit := congrArg (BitVec.getLsbD · (w - 1)) hx
      simp [hpoly, BitVec.getLsbD_of_ge x (1 + (w - 1)) (by omega)] at hbit
    · rename_i hlow
      apply BitVec.eq_of_getLsbD_eq
      intro i hi
      cases i with
      | zero => simpa using hlow
      | succ i =>
        have hbit := congrArg (BitVec.getLsbD · i) hx
        simpa [Nat.add_comm] using hbit
  intro a b hab
  have hdiff : shiftOut poly (a ^^^ b) = 0#w := by rw [shiftOut_xor, hab, BitVec.xor_self]
  exact BitVec.xor_eq_zero_iff.mp (hkernel _ hdiff)

theorem feeds_injective (bits : List Bool) : Function.Injective (feeds poly · bits) := by
  induction bits with
  | nil => exact fun _ _ h => h
  | cons b bs ih =>
    intro s t hst
    have hfirst : feed poly s b = feed poly t b := ih hst
    exact (BitVec.xor_left_inj _).mp (shiftOut_injective poly hpoly hfirst)

/-- Different bits, no more than the register has, lead from one register to different ones. -/
theorem feeds_ne_of_short {bs cs : List Bool} (hlen : bs.length = cs.length) (h : bs.length ≤ w)
    (hne : bs ≠ cs) (s : BitVec w) : feeds poly s bs ≠ feeds poly s cs := by
  intro heq
  rw [feeds_eq_iterate poly h, feeds_eq_iterate poly (hlen ▸ h), ← hlen] at heq
  have hsame := (shiftOut_injective poly hpoly).iterate bs.length heq
  exact hne (ofBits_inj hlen h ((BitVec.xor_right_inj s).mp hsame))

/-- **A burst is always seen**: messages of one length that differ, and only within `w`
consecutive bits, end in different registers. -/
theorem feeds_ne_of_burst {bs cs : List Bool} (hlen : bs.length = cs.length) (hne : bs ≠ cs)
    {k : Nat} (hburst : ∀ i, bs[i]? ≠ cs[i]? → k ≤ i ∧ i < k + w) (s : BitVec w) :
    feeds poly s bs ≠ feeds poly s cs := by
  have hsplit : ∀ xs : List Bool,
      xs = xs.take k ++ ((xs.drop k).take w ++ xs.drop (k + w)) := by
    intro xs
    rw [← List.drop_drop, List.take_append_drop, List.take_append_drop]
  have hbefore : bs.take k = cs.take k := by
    apply List.ext_getElem?
    intro i
    rw [List.getElem?_take, List.getElem?_take]
    by_cases hi : i < k
    · rw [if_pos hi, if_pos hi]
      by_contra hdiff
      have := hburst i hdiff
      omega
    · rw [if_neg hi, if_neg hi]
  have hbehind : bs.drop (k + w) = cs.drop (k + w) := by
    apply List.ext_getElem?
    intro i
    rw [List.getElem?_drop, List.getElem?_drop]
    by_contra hdiff
    have := hburst _ hdiff
    omega
  have hwithin : (bs.drop k).take w ≠ (cs.drop k).take w := by
    intro heq
    apply hne
    rw [hsplit bs, hsplit cs, hbefore, heq, hbehind]
  have hfeeds : ∀ xs : List Bool, feeds poly s xs = feeds poly
      (feeds poly (feeds poly s (xs.take k)) ((xs.drop k).take w)) (xs.drop (k + w)) := by
    intro xs
    simp only [feeds, ← List.foldl_append]
    rw [List.append_assoc, ← hsplit xs]
  -- what follows the burst keeps the registers apart
  rw [hfeeds bs, hfeeds cs, hbefore, hbehind]
  intro heq
  refine feeds_ne_of_short poly hpoly ?_ ?_ hwithin _ (feeds_injective poly hpoly _ heq)
  · simp [hlen]
  · rw [List.length_take]
    omega

end Burst

end Foundation.Crc
