/-!
# The curve secp256k1

The curve `y² = x³ + 7` over the field of `fieldPrime` elements, with its group law in Jacobian
coordinates: `(x, y, z)` stands for the point `(x / z², y / z³)`, and every triple with `z = 0` for
the point at infinity.  Field elements are numbers below `fieldPrime`.
-/

namespace LedgerChain

namespace Curve

/-- The number of elements of the field. -/
def fieldPrime : Nat := Nat.pow 2 256 - Nat.pow 2 32 - 977

/-- The number of points of the curve. -/
def order : Nat := 0xfffffffffffffffffffffffffffffffebaaedce6af48a03bbfd25e8cd0364141

/-- The lowest 256 binary digits of a number, most significant first. -/
def bits (n : Nat) : List Bool := (List.range 256).map fun i => n.testBit (255 - i)

/-- The difference of two field elements. -/
def sub (a b : Nat) : Nat := (a + (fieldPrime - b)) % fieldPrime

/-- The product of two field elements. -/
def mul (a b : Nat) : Nat := a * b % fieldPrime

/-- The power of a field element, by an exponent of 256 bits. -/
def pow (a exponent : Nat) : Nat :=
  (bits exponent).foldl (fun acc bit => if bit then mul (mul acc acc) a else mul acc acc) 1

/-- The inverse of a field element. -/
def inverse (a : Nat) : Nat := pow a (fieldPrime - 2)

/-- A point in Jacobian coordinates. -/
structure Point where
  x : Nat
  y : Nat
  z : Nat

namespace Point

/-- The neutral element. -/
def infinity : Point := ⟨1, 1, 0⟩

/-- Twice a point. -/
def double (p : Point) : Point :=
  if p.y = 0 ∨ p.z = 0 then infinity
  else
    let a := mul p.x p.x
    let b := mul p.y p.y
    let c := mul b b
    let d := mul 2 (sub (sub (mul (p.x + b) (p.x + b)) a) c)
    let e := mul 3 a
    let x := sub (mul e e) (mul 2 d)
    ⟨x, sub (mul e (sub d x)) (mul 8 c), mul 2 (mul p.y p.z)⟩

/-- The sum of two points. -/
def add (p q : Point) : Point :=
  if p.z = 0 then q
  else if q.z = 0 then p
  else
    let pz := mul p.z p.z
    let qz := mul q.z q.z
    let u := mul p.x qz
    let v := mul q.x pz
    let s := mul p.y (mul qz q.z)
    let t := mul q.y (mul pz p.z)
    if u = v then if s = t then double p else infinity
    else
      let h := sub v u
      let r := sub t s
      let hh := mul h h
      let hhh := mul hh h
      let w := mul u hh
      let x := sub (sub (mul r r) hhh) (mul 2 w)
      ⟨x, sub (mul r (sub w x)) (mul s hhh), mul h (mul p.z q.z)⟩

/-- A multiple of a point, by a factor of 256 bits. -/
def smul (factor : Nat) (p : Point) : Point :=
  (bits factor).foldl (fun acc bit => if bit then add (double acc) p else double acc) infinity

/-- The two coordinates of a point other than the one at infinity. -/
def affine? (p : Point) : Option (Nat × Nat) :=
  if p.z = 0 then none
  else
    let w := inverse p.z
    let ww := mul w w
    some (mul p.x ww, mul p.y (mul ww w))

/-- The point with even second coordinate over a given first one. -/
def lift? (x : Nat) : Option Point :=
  if fieldPrime ≤ x then none
  else
    let square := (mul (mul x x) x + 7) % fieldPrime
    let y := pow square ((fieldPrime + 1) / 4)
    if mul y y ≠ square then none
    else some ⟨x, if y % 2 = 0 then y else fieldPrime - y, 1⟩

/-- The generator of the group. -/
def generator : Point :=
  ⟨0x79be667ef9dcbbac55a06295ce870b07029bfcdb2dce28d959f2815b16f81798,
    0x483ada7726a3c4655da4fbfc0e1108a8fd17b448a68554199c47d08ffb10d4b8, 1⟩

end Point

end Curve

end LedgerChain
