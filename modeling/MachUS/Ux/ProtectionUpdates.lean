import MachUS.Foundation.Transition
import MachUS.Ux.FileProtections

namespace MachUS.Ux.Prot

open Function Relation Transition StdProt Option

structure Reading where
  generation : BitVec 32
  sets : ℕ

structure Updating (C : Type) where
  server : StdProt
  sets : ℕ
  reading : C → Option Reading

inductive UpdateCall (C : Type) where
  | get (c : C)
  | set (c : C) (acl : Acl) (memory : Bool)

namespace Updating

variable {C : Type} [DecidableEq C]

def start (server : StdProt) : Updating C := ⟨server, 0, fun _ => none⟩

def next (x : Updating C) : UpdateCall C → Option (Updating C)
  | .get c =>
    some { x with
      reading := update x.reading c
        (x.server.nsGetProtection.elim (fun _ => none) fun prot => some ⟨prot.generation, x.sets⟩) }
  | .set c acl memory => do
    let r ← x.reading c
    let s := x.server.nsSetProtection ⟨r.generation + 1, acl⟩ memory
    some
      { server := s.2
        sets := if s.1 = none then x.sets + 1 else x.sets
        reading := update x.reading c none }

def Counts (x : Updating C) : UpdateCall C → Prop
  | .get _ => True
  | .set c _ _ => ∀ r ∈ x.reading c, r.generation + 1 ≠ 0

def Dated (x : Updating C) : Prop :=
  ∀ c r, x.reading c = some r → r.sets ≤ x.sets ∧ ∀ prot, x.server.prot = some prot →
    (r.sets = x.sets → r.generation = prot.generation) ∧
      (r.sets < x.sets → r.generation.toNat < prot.generation.toNat)

theorem get_prot {s : StdProt} {prot : NsProt} (h : s.nsGetProtection = .inr prot) :
    s.prot = some prot := by
  rw [nsGetProtection] at h
  split_ifs at h
  cases hprot : s.prot with
  | none => rw [hprot] at h; cases h
  | some p => rw [hprot] at h; exact congrArg some (Sum.inr.inj h)

theorem set_cases (s : StdProt) (sent : NsProt) (hsent : sent.generation ≠ 0) (memory : Bool) :
    ((s.nsSetProtection sent memory).1 = none ∧ (s.nsSetProtection sent memory).2.prot = some sent ∧
        ∃ prot, s.prot = some prot ∧ sent.generation = prot.generation + 1) ∨
      ((s.nsSetProtection sent memory).1 ≠ none ∧
        ∀ prot, (s.nsSetProtection sent memory).2.prot = some prot → s.prot = some prot) := by
  rw [nsSetProtection, if_neg hsent]
  split_ifs with hdead
  · exact .inr ⟨by simp, fun _ h => h⟩
  · cases hprot : s.prot with
    | none => exact .inr ⟨by simp, fun prot h => by simp at h⟩
    | some p =>
      dsimp only
      split_ifs with hgen
      · exact .inr ⟨by simp, fun prot h => hprot.symm.trans h⟩
      · rw [store]
        cases memory with
        | false => exact .inr ⟨by simp, fun prot h => by simp at h⟩
        | true => exact .inl ⟨rfl, rfl, p, rfl, not_not.mp hgen⟩

theorem Dated.next {x y : Updating C} (h : x.Dated) {e : UpdateCall C} (he : x.Counts e)
    (hy : x.next e = some y) : y.Dated := by
  cases e with
  | get c =>
    cases hy
    intro d r hr
    rcases eq_or_ne d c with rfl | hne
    · simp only [update_self] at hr
      cases hget : x.server.nsGetProtection with
      | inl f => simp [hget] at hr
      | inr prot =>
        simp only [hget, Sum.elim_inr, some.injEq] at hr
        subst hr
        refine ⟨le_rfl, fun p hp => ⟨fun _ => ?_, fun hlt => absurd hlt (lt_irrefl _)⟩⟩
        rw [some.inj ((get_prot hget).symm.trans hp)]
    · exact h d r (by simpa [hne] using hr)
  | set c acl memory =>
    obtain ⟨r, hr, hy⟩ := bind_eq_some_iff.mp hy
    cases hy
    have hold (d : C) (q : Reading) (hq : update x.reading c none d = some q) :
        x.reading d = some q := by
      rcases eq_or_ne d c with rfl | hne
      · simp at hq
      · simpa [hne] using hq
    intro d q hq
    obtain ⟨hle, hprot⟩ := h d q (hold d q hq)
    have hcount := he r hr
    rcases set_cases x.server ⟨r.generation + 1, acl⟩ hcount memory with
      ⟨hdone, hnew, p, hp, hgen⟩ | ⟨hfailed, hkept⟩
    · rw [if_pos hdone]
      refine ⟨Nat.le_succ_of_le hle, fun p' hp' => ⟨fun heq => ?_, fun _ => ?_⟩⟩
      · exact absurd (heq ▸ hle) (Nat.not_succ_le_self _)
      · cases hnew.symm.trans hp'
        obtain ⟨hsame, hless⟩ := hprot p hp
        have hone : (p.generation + 1).toNat = p.generation.toNat + 1 := by
          bv_omega
        rw [hgen, hone]
        rcases hle.eq_or_lt with heq | hlt
        · rw [hsame heq]
          exact Nat.lt_succ_self _
        · exact (hless hlt).trans (Nat.lt_succ_self _)
    · rw [if_neg hfailed]
      exact ⟨hle, fun p hp => hprot p (hkept p hp)⟩

end Updating

open Updating

theorem no_lost_protection {C : Type} [DecidableEq C] (server : StdProt) {x : Updating C}
    (hrun : ReflTransGen (Under next Counts) (start server) x) (c : C) (acl : Acl) (memory : Bool)
    {r : Reading} (hr : x.reading c = some r) (he : x.Counts (.set c acl memory))
    (hset : (x.server.nsSetProtection ⟨r.generation + 1, acl⟩ memory).1 = none) :
    r.sets = x.sets := by
  have hdated := Transition.invariant (fun _ _ _ h he hy => Dated.next h he hy) hrun
    (I := Dated) (fun c r hr => by cases hr)
  obtain ⟨hle, hprot⟩ := hdated c r hr
  rcases set_cases x.server ⟨r.generation + 1, acl⟩ (he r hr) memory with
    ⟨-, -, p, hp, hgen⟩ | ⟨hfailed, -⟩
  · by_contra hne
    have hless := (hprot p hp).2 (lt_of_le_of_ne hle hne)
    have hsame : r.generation = p.generation := by simpa using hgen
    rw [hsame] at hless
    exact lt_irrefl _ hless
  · exact absurd hset hfailed

def stdProtDefaultProt : StdProt := ⟨some ⟨1, [⟨0, 0x80⟩]⟩, false⟩

theorem no_lost_protection_once : ∃ (x : Updating Bool) (r : Reading), x.reading true = some r ∧
    (x.server.nsSetProtection ⟨r.generation + 1, []⟩ true).1 = none ∧ r.sets = x.sets := by
  refine ⟨_, ⟨1, 0⟩, rfl, rfl, no_lost_protection stdProtDefaultProt
    (.single ⟨.get true, trivial, rfl⟩) true [] true rfl ?_ rfl⟩
  rintro r hr
  cases hr
  decide

theorem reaches_generation {n : ℕ} (h : n < 2 ^ 32 - 1) : ∃ acl : Acl,
    ReflTransGen (Under next Free) (start stdProtDefaultProt : Updating Bool)
      ⟨⟨some ⟨BitVec.ofNat 32 (n + 1), acl⟩, false⟩, n, fun _ => none⟩ := by
  induction n with
  | zero => exact ⟨_, .refl⟩
  | succ n ih =>
    obtain ⟨acl, hrun⟩ := ih (Nat.lt_of_succ_lt h)
    have hnext : BitVec.ofNat 32 (n + 1) + 1#32 = BitVec.ofNat 32 (n + 1 + 1) :=
      (BitVec.ofNat_add (n + 1) 1).symm
    refine ⟨[], (hrun.tail ⟨.get true, trivial, rfl⟩).tail ⟨.set true [] true, trivial, ?_⟩⟩
    simp [next, nsGetProtection, nsSetProtection, store, hnext]

theorem wrapped_protection_lost : ∃ (x : Updating Bool) (r : Reading),
    ReflTransGen (Under next Free) (start stdProtDefaultProt) x ∧ x.reading false = some r ∧
      (x.server.nsSetProtection ⟨r.generation + 1, []⟩ true).1 = none ∧ r.sets ≠ x.sets := by
  obtain ⟨acl, hrun⟩ := reaches_generation (n := 2 ^ 32 - 2) (by decide)
  refine ⟨_, ⟨0xffffffff, 2 ^ 32 - 2⟩, ((hrun.tail ⟨.get true, trivial, rfl⟩).tail
    ⟨.get false, trivial, rfl⟩).tail ⟨.set true [] true, trivial, rfl⟩, ?_, ?_, ?_⟩
  · simp [nsGetProtection]
  · simp [nsSetProtection, store]
  · simp [nsSetProtection, store]

end MachUS.Ux.Prot
