import HardApi.Gmp
import Mathlib.Data.Int.Range
import Mathlib.Logic.Function.Basic

/-!
# The class `Paillier`

`base_paillier.cpp`, function by function. An object is the record of its members; a method that
fills an `mpz_class &res` returns it. `key_gen` reads its random numbers from a list of draws: the
nested `do`/`while` loops consume one draw for each `get_z_bits` and the run is over when a pair of
primes is accepted, so a list that is too short gives `none`.

A `std::vector<mpz_class>` is a function of its index. `[]` does not check the index, so an index
outside is a fault.
-/

namespace HardApi

/-- The members of class `Paillier`. -/
structure Paillier where
  n : ℤ
  g : ℤ
  nsquare : ℤ
  p : ℤ
  q : ℤ
  pm1 : ℤ
  qm1 : ℤ
  psquare : ℤ
  qsquare : ℤ
  pInverse : ℤ
  hp : ℤ
  hq : ℤ
  keySize : ℕ
  deriving DecidableEq, Repr

/-- `(x - 1) / p`. -/
def lFunc (x p : ℤ) : Except Fault ℤ := mpzDivexact (x - 1) p

def hFunc (g x xsquare : ℤ) : Except Fault ℤ := do
  let xm1 := x - 1
  let res ← mpzPowm g xm1 xsquare
  let lRes ← lFunc res x
  mpzInvert lRes x

def crt (mp mq p q pInverse : ℤ) : Except Fault ℤ := do
  let u ← mpzTdivR ((mq - mp) * pInverse) q
  return mp + u * p

/-- `v[i]`. -/
def vectorAt {len : ℕ} (v : Fin len → ℤ) (i : ℤ) : Except Fault ℤ :=
  if h : 0 ≤ i ∧ i.toNat < len then .ok (v ⟨i.toNat, h.2⟩) else .error .undefined

/-- `v[i] = x`. -/
def vectorSet {len : ℕ} (v : Fin len → ℤ) (i x : ℤ) : Except Fault (Fin len → ℤ) :=
  if h : 0 ≤ i ∧ i.toNat < len then .ok (Function.update v ⟨i.toNat, h.2⟩ x)
  else .error .undefined

/-- An argument `const std::vector<mpz_class> &` next to a `std::vector<mpz_class> &res` of `len`
elements: `res` itself or another vector. -/
inductive VectorArg (len : ℕ) where
  | res
  | other {size : ℕ} (v : Fin size → ℤ)

/-- `arg[i]` while `res` holds these elements. -/
def VectorArg.at {len : ℕ} (res : Fin len → ℤ) : VectorArg len → ℤ → Except Fault ℤ
  | .res, i => vectorAt res i
  | .other v, i => vectorAt v i

namespace Paillier

/-! ## Key generation -/

/-- The loops of `key_gen`, at the head of the outer one (`none`) or of the inner one with `p`
drawn (`some p`). -/
def drawPrimes (keySize : ℕ) : Option ℕ → List (Fin (2 ^ (keySize / 2))) → Option (ℕ × ℕ)
  | _, [] => none
  | none, a :: draws => drawPrimes keySize (some (mpzNextprime a)) draws
  | some p, b :: draws =>
    let q := mpzNextprime b
    if q = p then drawPrimes keySize (some p) draws
    else if mpzSizeinbase2 ((p : ℤ) * q) ≠ keySize then drawPrimes keySize none draws
    else some (p, q)

/-- `key_gen` after its loops. -/
def keyGenRest (keySize : ℕ) (p q : ℤ) : Except Fault Paillier := do
  let n := p * q
  let g := n + 1
  let nsquare := n * n
  let (p, q) := if q < p then (q, p) else (p, q)
  let pm1 := p - 1
  let qm1 := q - 1
  let psquare := p * p
  let qsquare := q * q
  let pInverse ← mpzInvert p q
  let hp ← hFunc g p psquare
  let hq ← hFunc g q qsquare
  return { n, g, nsquare, p, q, pm1, qm1, psquare, qsquare, pInverse, hp, hq, keySize }

def keyGen (keySize : ℕ) (draws : List (Fin (2 ^ (keySize / 2)))) :
    Option (Except Fault Paillier) :=
  (drawPrimes keySize none draws).map fun primes => keyGenRest keySize primes.1 primes.2

/-! ## The cryptosystem -/

def encrypt (key : Paillier) (m : ℤ) : Except Fault ℤ := do
  let r := 65537
  let nudeCiphertext := key.n * m + 1
  let obfuscator ← mpzPowm r key.n key.nsquare
  let temp := nudeCiphertext * obfuscator
  mpzMod temp key.nsquare

def decrypt (key : Paillier) (c : ℤ) : Except Fault ℤ := do
  let pmp ← mpzPowm c key.pm1 key.psquare
  let pmq ← mpzPowm c key.qm1 key.qsquare
  let lp ← lFunc pmp key.p
  let lq ← lFunc pmq key.q
  let dep ← mpzTdivR (lp * key.hp) key.p
  let deq ← mpzTdivR (lq * key.hq) key.q
  crt dep deq key.p key.q key.pInverse

def add (key : Paillier) (c1 c2 : ℤ) : Except Fault ℤ := mpzTdivR (c1 * c2) key.nsquare

/-- The test is `cmp(m, forNegative) == 1`, so a `cmp` that answers with a larger positive number
leaves a large scalar on the plain path. -/
def mul (mpz : MpzCmp) (key : Paillier) (c m : ℤ) : Except Fault ℤ := do
  let maxInt := key.n.tdiv 3
  let forNegative := maxInt * 2
  if mpz.cmp m forNegative = 1 then
    let negC ← mpzInvert c key.nsquare
    let negScalar := key.n - m
    mpzPowm negC negScalar key.nsquare
  else
    mpzPowm c m key.nsquare

/-! ## Vectors -/

/-- `c` is none of the elements of `res`. -/
def vectorMul (mpz : MpzCmp) (key : Paillier) {len : ℕ} (res : Fin len → ℤ) (c : ℤ)
    (m : VectorArg len) (startIndex endIndex : ℤ) : Except Fault (Fin len → ℤ) :=
  (Int.range startIndex endIndex).foldlM
    (fun res i => do
      -- The references to both elements are made before the call.
      let _ ← vectorAt res i
      let mi ← m.at res (i - startIndex)
      let x ← key.mul mpz c mi
      vectorSet res i x)
    res

def vectorDecrypt (key : Paillier) {len : ℕ} (res : Fin len → ℤ) (c : VectorArg len)
    (startIndex endIndex : ℤ) : Except Fault (Fin len → ℤ) :=
  (Int.range startIndex endIndex).foldlM
    (fun res i => do
      let ci ← c.at res i
      let m ← key.decrypt ci
      vectorSet res i m)
    res

end Paillier

end HardApi
