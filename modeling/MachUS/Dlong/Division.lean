import MachUS.Dlong.Arithmetic

namespace MachUS.Arith.Dlong

inductive Fault
  | index
  | width
  | divide
  deriving DecidableEq

abbrev Run := Except Fault

structure Accumulator where
  put : ℤ → Run ℕ
  put_of_fit : ∀ t : ℕ, t < 2 ^ 32 → put t = .ok t

def exactPut (t : ℤ) : Run ℕ := if 0 ≤ t ∧ t < 2 ^ 32 then .ok t.toNat else .error .width

theorem exactPut_of_fit (t : ℕ) (h : t < 2 ^ 32) : exactPut t = .ok t := by
  rw [exactPut, if_pos ⟨by omega, by omega⟩]
  rfl

def Accumulator.exact : Accumulator := ⟨exactPut, exactPut_of_fit⟩

structure Digits (size : ℕ) where
  cell : ℕ → UInt16

namespace Digits

variable {size : ℕ}

def value (a : Digits size) (lo len : ℕ) : ℕ := Radix.value dlongBase (digits a.cell) lo len

def load (a : Digits size) (i : ℕ) : Run ℕ :=
  if i < size then .ok (a.cell i).toNat else .error .index

def write (a : Digits size) (i t : ℕ) : Digits size :=
  ⟨Function.update a.cell i (UInt16.ofNat t)⟩

def store (a : Digits size) (i t : ℕ) : Run (Digits size) :=
  if i < size then .ok (a.write i t) else .error .index

end Digits

def ofDlong (x : Dlong) : Digits 4 := ⟨x.d⟩

def toDlong (a : Digits 4) : Dlong := ofDigits a.cell

section Loops

variable (ac : Accumulator) {s t : ℕ}

def scale (src : Digits s) (start dest factor : ℕ) :
    ℕ → Digits t → ℕ → Run (Digits t × ℕ)
  | 0, dst, k => .ok (dst, k)
  | c + 1, dst, k => do
    let x ← src.load (start + c)
    let t ← ac.put (x * factor + k)
    let dst ← dst.store (dest + c) t
    scale src start dest factor c dst (t / dlongBase % dlongBase)

def bcopy (src : Digits s) (start dest : ℕ) : ℕ → Digits t → Run (Digits t)
  | 0, dst => .ok dst
  | c + 1, dst => do
    let x ← src.load (start + c)
    let dst ← dst.store (dest + c) x
    bcopy src start dest c dst

def shortDivide (src : Digits s) (divisor : ℕ) :
    ℕ → ℕ → ℕ → Digits t → ℕ → Run (Digits t × ℕ)
  | 0, _, _, dst, prevu => .ok (dst, prevu)
  | c + 1, start, dest, dst, prevu => do
    let x ← src.load start
    let t ← ac.put (x + prevu * dlongBase)
    let tmpq := t / divisor % dlongBase
    let dst ← dst.store dest tmpq
    let prevu ← ac.put (t - divisor * tmpq)
    shortDivide src divisor c (start + 1) (dest + 1) dst prevu

def estimate (v1 v2 u_j u_j1 u_j2 : ℕ) : ℕ → Run ℕ
  | 0 => .ok 0
  | q + 1 => do
    let minuend ← ac.put (u_j * dlongBase + u_j1)
    let product ← ac.put ((q + 1) * v1)
    let u_j_q_hat ← ac.put (minuend - product)
    if u_j_q_hat / dlongBase ≠ 0 then .ok (q + 1) else do
      let u_j_q_hat ← ac.put (u_j_q_hat * dlongBase + u_j2)
      let product ← ac.put (v2 * (q + 1))
      if product ≤ u_j_q_hat then .ok (q + 1) else estimate v1 v2 u_j u_j1 u_j2 q

def subtract (nv : Digits s) (j : ℕ) : ℕ → Digits t → UInt32 → Run (Digits t × UInt32)
  | 0, uv, borrow => .ok (uv, borrow)
  | c + 1, uv, borrow => do
    let x ← uv.load (j + c)
    let y ← nv.load c
    let t := UInt32.ofNat x - UInt32.ofNat y - borrow
    let uv ← uv.store (j + c) t.toNat
    subtract nv j c uv (if t / 65536 ≠ 0 then 1 else 0)

def addBack (vv : Digits s) (j : ℕ) : ℕ → Digits t → ℕ → Run (Digits t × ℕ)
  | 0, uv, k => .ok (uv, k)
  | c + 1, uv, k => do
    let x ← uv.load (j + 1 + c)
    let y ← vv.load c
    let t ← ac.put (x + y + k)
    let uv ← uv.store (j + 1 + c) t
    addBack vv j c uv (t / dlongBase % dlongBase)

end Loops

def dlongCmpDigits (l1 l2 : Digits 4) : ℕ → ℕ → ℕ → Run ℤ
  | 0, _, _ => .ok 0
  | n + 1, o1, o2 => do
    let x ← l1.load o1
    let y ← l2.load o2
    if x ≠ y then .ok (if y < x then 1 else -1) else dlongCmpDigits l1 l2 n (o1 + 1) (o2 + 1)

structure Frame where
  uv : Digits 5
  vv : Digits 4
  qv : Digits 5
  nv : Digits 5

section Division

variable (ac : Accumulator)

def guess (u_j u_j1 v1 : ℕ) : Run ℕ :=
  if u_j = v1 then ac.put (dlongBase - 1) else do
    let t ← ac.put (u_j * dlongBase + u_j1)
    ac.put (t / v1)

def testRemainder (n j : ℕ) (borrow : UInt32) (f : Frame) : Run Frame :=
  if borrow ≠ 0 then do
    let (uv, k) ← addBack ac f.vv j n f.uv 0
    let u ← uv.load j
    let uv ← uv.store j (u + k)
    let q ← f.qv.load j
    let qv ← f.qv.store j (q + (dlongBase - 1))
    .ok { f with uv, qv }
  else .ok f

def divideStep (n v1 v2 j : ℕ) (f : Frame) : Run Frame := do
  let u_j ← f.uv.load j
  let u_j1 ← f.uv.load (j + 1)
  let q_hat ← guess ac u_j u_j1 v1
  let u_j2 ← f.uv.load (j + 2)
  let q_hat ← estimate ac v1 v2 u_j u_j1 u_j2 q_hat
  let (nv, k) ← scale ac f.vv 0 1 q_hat n f.nv 0
  let nv ← nv.store 0 k
  let (uv, borrow) ← subtract nv j (n + 1) f.uv 0
  let qv ← f.qv.store j q_hat
  testRemainder ac n j borrow { f with uv, qv, nv }

def divideLoop (n v1 v2 : ℕ) : ℕ → ℕ → Frame → Run Frame
  | 0, _, f => .ok f
  | c + 1, j, f => do
    let f ← divideStep ac n v1 v2 j f
    divideLoop n v1 v2 c (j + 1) f

def signed (negative : Bool) (x : Dlong) : Dlong := if negative then dlongNeg x else x

def digitCount (x : Dlong) : ℕ → ℕ
  | 0 => 0
  | c + 1 => if x.d (4 - (c + 1)) = 0 then digitCount x c else c + 1

def normalizeDividend (u : Dlong) (m_n d : ℕ) (uv : Digits 5) : Run (Digits 5) :=
  if d = 1 then do
    let uv ← uv.store 0 0
    bcopy (ofDlong u) (4 - m_n) 1 m_n uv
  else do
    let (uv, k) ← scale ac (ofDlong u) (4 - m_n) 1 d m_n uv 0
    uv.store 0 k

def normalizeDivisor (v : Dlong) (n d : ℕ) (vv : Digits 4) : Run (Digits 4) :=
  if d = 1 then bcopy (ofDlong v) (4 - n) 0 n vv
  else do
    let (vv, _) ← scale ac (ofDlong v) (4 - n) 0 d n vv 0
    .ok vv

def unnormalize (uv : Digits 5) (m n d : ℕ) : Run (Digits 4) :=
  if d = 1 then bcopy uv (m + 1) (4 - n) n (ofDlong zero)
  else do
    let (r, _) ← shortDivide ac uv d n (m + 1) (4 - n) (ofDlong zero) 0
    .ok r

def divideGeneral (f : Frame) (u v : Dlong) (m_n n : ℕ) : Run (Dlong × Dlong) := do
  let m := m_n - n
  let first ← (ofDlong v).load (4 - n)
  let d := dlongBase / (first + 1)
  let uv ← normalizeDividend ac u m_n d f.uv
  let vv ← normalizeDivisor ac v n d f.vv
  let v1 ← vv.load 0
  let v2 ← vv.load 1
  let f ← divideLoop ac n v1 v2 (m + 1) 0 { f with uv, vv }
  let q ← bcopy f.qv 0 (3 - m) (m + 1) (ofDlong zero)
  let r ← unnormalize ac f.uv m n d
  .ok (toDlong q, toDlong r)

def dividePositive (f : Frame) (negquotient negremainder : Bool) (u v : Dlong) :
    Run (Dlong × Dlong) :=
  let m_n := digitCount u 4
  let n := digitCount v 4
  let general := do
    let (q, r) ← divideGeneral ac f u v m_n n
    .ok (signed negquotient q, signed negremainder r)
  if n = 0 then .error .divide
  else if n ≤ 2 ∧ m_n ≤ 2 then do
    let lu ← ac.put (u.d2.toNat * dlongBase + u.d3.toNat)
    let lv ← ac.put (v.d2.toNat * dlongBase + v.d3.toNat)
    .ok (signed negquotient (uLongToDlong (UInt32.ofNat (lu / lv))),
      signed negremainder (uLongToDlong (UInt32.ofNat (lu % lv))))
  else if n = 1 then do
    let (q, prevu) ←
      shortDivide ac (ofDlong u) v.d3.toNat m_n (4 - m_n) (4 - m_n) (ofDlong zero) 0
    .ok (signed negquotient (toDlong q), signed negremainder (uLongToDlong (UInt32.ofNat prevu)))
  else if m_n < n then .ok (zero, signed negremainder u)
  else if m_n = n then do
    let cmp ← dlongCmpDigits (ofDlong u) (ofDlong v) m_n (4 - m_n) (4 - n)
    if cmp < 0 then .ok (zero, signed negremainder u)
    else if cmp = 0 then
      .ok (if negquotient then ⟨0xffff, 0xffff, 0xffff, 0xffff⟩ else ⟨0, 0, 0, 1⟩, zero)
    else general
  else general

def dlongDivrem (f : Frame) (u v : Dlong) : Run (Dlong × Dlong) :=
  let negremainder := isneg u
  let negquotient := if isneg v then !negremainder else negremainder
  dividePositive ac f negquotient negremainder (signed negremainder u) (signed (isneg v) v)

end Division

end MachUS.Arith.Dlong
