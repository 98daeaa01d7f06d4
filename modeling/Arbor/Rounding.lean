/-!
# Rounding to fewer binary digits

`Nat.shiftRound` is the one rounding rule of binary arithmetic that the library spells out: to the nearer neighbour,
and from the middle to the even one. Singles (`Float.toSingle`) and the scaling of draws are built on it;
`UInt64.toNat_shiftRound` says that words are rounded alike.
-/

/-- The quotient `n / 2 ^ k`, rounded to the nearer whole number and from the middle to the even one. -/
def Nat.shiftRound (n k : Nat) : Nat :=
  let unit := 1 <<< k
  let quotient := n / unit
  let rest := n % unit
  if unit < 2 * rest ∨ (unit = 2 * rest ∧ quotient % 2 = 1) then quotient + 1 else quotient

/-- The whole number nearest to `n` among those with so many significant binary digits. -/
def Nat.roundSignificant (n digits : Nat) : Nat :=
  let dropped := n.log2 + 1 - digits
  n.shiftRound dropped <<< dropped

/-- The quotient of a word by `2 ^ k`, where `0 < k < 64`, rounded to the nearer whole number and from the middle to
the even one. -/
def UInt64.shiftRound (w k : UInt64) : UInt64 :=
  let quotient := w >>> k
  let rest := w - (quotient <<< k)
  let half : UInt64 := 1 <<< (k - 1)
  if half < rest ∨ (half = rest ∧ quotient % 2 = 1) then quotient + 1 else quotient

theorem UInt64.toNat_shiftRound (w : UInt64) {k : UInt64} (hpos : 0 < k) (hlt : k < 64) :
    (w.shiftRound k).toNat = w.toNat.shiftRound k.toNat := by
  have hk : 0 < k.toNat := by simpa [UInt64.lt_iff_toNat_lt] using hpos
  have hk' : k.toNat < 64 := by simpa [UInt64.lt_iff_toNat_lt] using hlt
  have hmod : k.toNat % 64 = k.toNat := Nat.mod_eq_of_lt hk'
  have hw := w.toNat_lt
  have hone : (1 : UInt64).toNat = 1 := rfl
  have hunit : 2 ^ k.toNat = 2 * 2 ^ (k.toNat - 1) := by
    rw [← Nat.pow_succ']
    congr 1
    omega
  have hquotient : (w >>> k).toNat = w.toNat / 2 ^ k.toNat := by
    rw [UInt64.toNat_shiftRight, hmod, Nat.shiftRight_eq_div_pow]
  have hle : w.toNat / 2 ^ k.toNat * 2 ^ k.toNat ≤ w.toNat := Nat.div_mul_le_self _ _
  have hmultiple : ((w >>> k) <<< k).toNat = w.toNat / 2 ^ k.toNat * 2 ^ k.toNat := by
    rw [UInt64.toNat_shiftLeft, hmod, hquotient, Nat.shiftLeft_eq, Nat.mod_eq_of_lt (by omega)]
  have hrest : (w - ((w >>> k) <<< k)).toNat = w.toNat % 2 ^ k.toNat := by
    rw [UInt64.toNat_sub_of_le _ _ (by rw [UInt64.le_iff_toNat_le]; omega), hmultiple]
    have := Nat.div_add_mod w.toNat (2 ^ k.toNat)
    rw [Nat.mul_comm] at this
    omega
  have hhalf : ((1 : UInt64) <<< (k - 1)).toNat = 2 ^ (k.toNat - 1) := by
    have h1 : (k - 1).toNat = k.toNat - 1 := UInt64.toNat_sub_of_le _ _ (by
      rw [UInt64.le_iff_toNat_le]
      exact hk)
    have hp : 2 ^ (k.toNat - 1) < 2 ^ 64 := Nat.pow_lt_pow_right (by omega) (by omega)
    rw [UInt64.toNat_shiftLeft, h1, Nat.mod_eq_of_lt (show k.toNat - 1 < 64 by omega), Nat.shiftLeft_eq, hone,
      Nat.one_mul, Nat.mod_eq_of_lt hp]
  have hsmall : w.toNat / 2 ^ k.toNat < 2 ^ 63 := by
    have : 2 ≤ 2 ^ k.toNat := by
      rw [hunit]
      have := Nat.pow_pos (a := 2) (n := k.toNat - 1) (by omega)
      omega
    have := Nat.div_le_div_left this (by omega) (a := w.toNat)
    omega
  have hplus : ((w >>> k) + 1).toNat = w.toNat / 2 ^ k.toNat + 1 := by
    rw [UInt64.toNat_add, hquotient, hone]
    exact Nat.mod_eq_of_lt (by omega)
  have hodd : (w >>> k) % 2 = 1 ↔ w.toNat / 2 ^ k.toNat % 2 = 1 := by
    rw [← UInt64.toNat_inj, UInt64.toNat_mod, hquotient]
    rfl
  have hover : (1 : UInt64) <<< (k - 1) < w - ((w >>> k) <<< k) ↔ 2 ^ k.toNat < 2 * (w.toNat % 2 ^ k.toNat) := by
    rw [UInt64.lt_iff_toNat_lt, hhalf, hrest]
    omega
  have heven : (1 : UInt64) <<< (k - 1) = w - ((w >>> k) <<< k) ↔ 2 ^ k.toNat = 2 * (w.toNat % 2 ^ k.toNat) := by
    rw [← UInt64.toNat_inj, hhalf, hrest]
    omega
  simp only [UInt64.shiftRound, Nat.shiftRound, Nat.shiftLeft_eq, Nat.one_mul, hover, heven, hodd]
  split <;> simp [hplus, hquotient]

/-- The single nearest to a double. With the exponent kept above the fraction, a carry out of the fraction and the step
into the range of the smallest singles need no case of their own. Sixty places to the right leave nothing of a
fraction, so no number is moved further. -/
def Float.toSingle (x : Float) : Float32 :=
  let bits := x.toBits
  let sign := (bits >>> 63).toUInt32 <<< 31
  let exponent := (bits >>> 52) &&& 0x7ff
  let fraction := bits &&& 0xfffffffffffff
  if exponent = 2047 then Float32.ofBits (sign ||| (if fraction = 0 then 0x7f800000 else 0x7fc00000))
  else
    let mantissa := if exponent = 0 then fraction else fraction ||| 0x10000000000000
    let magnitude :=
      if 897 < exponent then ((exponent - 897) <<< 23) + mantissa.shiftRound 29
      else mantissa.shiftRound (min (926 - exponent) 60)
    Float32.ofBits (sign ||| (min magnitude 0x7f800000).toUInt32)

/-- The single nearest to a whole number. The double between has room for all the digits that are left. -/
def Int.toSingle (n : Int) : Float32 :=
  let magnitude := (Float.ofNat (n.natAbs.roundSignificant 24)).toSingle
  if n < 0 then -magnitude else magnitude
