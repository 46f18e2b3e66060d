import MachUS.Tm.RegistrationTables
import Mathlib.Data.Fintype.Basic

namespace MachUS.Tm.Registration

open Relation Transition Master

variable {T : Type} {maxuprc k : ℕ} {p q : Phase}

namespace Master

theorem boot_inv (T : Type) : (boot : Master T).Inv := by
  refine ⟨fun id k b h => ?_, fun t => trivial, fun t u k h => ?_, fun port r h => ?_,
    fun k h => ?_, fun k h => ?_, fun k _ => rfl, fun r hr => ?_, rfl⟩
  · cases h
  · cases h
  · cases h
  · cases h
  · cases h
  · cases hr

section Views

variable {x : Master T}

theorem Inv.public_of_quiet (h : x.Inv) (hquiet : x.Quiet) (hinst : x.Installed k) :
    x.Public k := by
  rcases h.installed k hinst with hp | ⟨t, ht⟩
  · exact hp
  · rw [hquiet t] at ht
    cases ht

theorem Inv.installed_of_entry (h : x.Inv) {id : ℕ} (hentry : x.taskDir id = some ⟨k, true⟩) :
    id = x.idOf k ∧ x.Installed k := by
  obtain ⟨rfl, -⟩ := h.named id k true hentry
  exact ⟨rfl, hentry⟩

theorem Inv.task_of_mapped (h : x.Inv) {port id : ℕ} (hm : x.mapped port = some id) :
    ∃ k, x.taskDir id = some ⟨k, true⟩ ∧ x.portOf k = port := by
  obtain ⟨r, hr, hrec⟩ := mapped_eq_some.mp hm
  obtain ⟨-, k, hk, hport, hinst, -⟩ := h.mapped port r hr
  cases hk.symm.trans hrec
  exact ⟨k, hinst, hport⟩

theorem Inv.agreed (h : x.Inv) : x.Agreed := by
  refine ⟨fun hquiet port id => ⟨h.task_of_mapped, ?_⟩, fun hquiet id k hentry => ?_,
    fun hquiet id k hentry => ?_, h.reports, h.faulted⟩
  · rintro ⟨k, hentry, rfl⟩
    obtain ⟨rfl, hinst⟩ := h.installed_of_entry hentry
    exact (h.public_of_quiet hquiet hinst).2
  · obtain ⟨rfl, hinst⟩ := h.installed_of_entry hentry
    refine ⟨fun id' hid' => (h.named id' k true hid').1, x.portOf k,
      (h.public_of_quiet hquiet hinst).2, fun port hport => ?_⟩
    obtain ⟨i, hi, rfl⟩ := h.task_of_mapped hport
    obtain rfl : i = k := congrArg Entry.task (Option.some.inj (hi.symm.trans hentry))
    rfl
  · obtain ⟨rfl, -⟩ := h.named id k false hentry
    obtain ⟨t, ht⟩ := h.reserved k hentry
    rw [hquiet t] at ht
    cases ht

end Views

variable [DecidableEq T] {x y : Master T} {t : T}

section

variable (h : x.Inv)

include h

theorem Inv.goes (hold : x.phase t = q) (hq : q.owns = none) (hp : p.owns = none)
    (hfits : x.Fits p) : (x.goes t p).Inv :=
  h.aside rfl (.same rfl rfl rfl rfl rfl rfl) rfl (hold ▸ hq) hp hfits h.reports rfl

theorem Inv.returns (hold : x.phase t = q) (hq : q.owns = none) {success : Bool}
    (hleft : success = false → x.leaves k = false) : ((x.report k success).goes t .idle).Inv := by
  refine h.aside rfl (.same rfl rfl rfl rfl rfl rfl) rfl (hold ▸ hq) rfl trivial (fun r hr hf => ?_) rfl
  rcases List.mem_cons.mp hr with rfl | hr
  · exact hleft hf
  · exact h.reports r hr hf

theorem Inv.succeed {source : Source} (hold : x.phase t = .forwarding k source) :
    (x.succeed t k source).Inv := by
  cases source with
  | forked parent => exact h.returns hold rfl fun hf => by cases hf
  | initial => exact h.goes hold rfl rfl trivial

theorem Inv.lookup (hold : x.phase t = .idle) (port : ℕ) (l : Lookup) :
    (x.lookup t port l).Inv := by
  rw [Master.lookup]
  split
  · exact h
  · exact h.goes hold rfl rfl trivial

theorem Inv.read {port r : ℕ} {l : Lookup} (hold : x.phase t = .reading port r l)
    (hr : x.record r ≠ none) : (x.read t port r l).Inv := by
  rw [Master.read]
  split
  · rename_i hnone
    exact absurd hnone hr
  · exact h.goes hold rfl rfl trivial

theorem Inv.seek {port id : ℕ} {l : Lookup} (hold : x.phase t = .seeking port id l)
    {ok : Bool} (horderly : l = .deregister → ∀ k, x.taskDir id = some ⟨k, true⟩ →
      port = x.portOf k ∧ ((x.task k).dead = true ∨ x.mapped port = some id))
    (hy : x.seek t port id l ok = some y) : y.Inv := by
  rw [Master.seek] at hy
  split at hy
  · cases hy
    exact h.goes hold rfl rfl trivial
  · split at hy
    · cases hy
    · cases hy
      exact h.goes hold rfl rfl trivial
  · rename_i k hentry
    cases l with
    | postRegister =>
      cases hy
      exact h.goes hold rfl rfl trivial
    | deregister =>
      cases hy
      obtain ⟨hport, hstate⟩ := horderly rfl k hentry
      obtain ⟨hid, -⟩ := h.named id k true hentry
      refine h.goes hold rfl rfl ⟨⟨hport, hid⟩, hstate.imp (fun hd => hd) fun hm => ?_⟩
      subst hport hid
      exact ⟨hentry, hm⟩

theorem Inv.start (hold : x.phase t = .idle) {r : Request} (hy : x.start t r = some y) : y.Inv := by
  cases r with
  | register source id port =>
    cases source with
    | forked parent =>
      rw [Master.start] at hy
      split at hy
      · cases hy
        exact h.register hold
      · cases hy
    | initial =>
      cases hy
      exact h.register hold
  | postRegister port =>
    cases hy
    exact h.lookup hold port _
  | deregister port =>
    cases hy
    exact h.lookup hold port _

theorem Inv.act {a : Answers} (horderly : x.Orderly maxuprc (.act t a))
    (hy : x.act maxuprc t a (x.phase t) = some y) : y.Inv := by
  cases hold : x.phase t with
  | idle =>
    rw [hold] at hy
    cases hy
  | joining k source =>
    rw [hold] at hy
    cases hy
    exact h.join hold a
  | counting k source =>
    rw [hold] at hy
    cases hy
    simp only [Orderly, hold] at horderly
    refine h.count hold (fun hfull => ?_) fun hroom => ?_
    · rwa [if_pos hfull] at horderly
    · rwa [if_neg hroom] at horderly
  | cancelling k =>
    rw [hold] at hy
    cases hy
    exact h.cancel hold
  | installing k source =>
    rw [hold] at hy
    cases hy
    simp only [Orderly, hold] at horderly
    rw [horderly]
    exact h.install hold
  | entering k source =>
    rw [hold] at hy
    cases hy
    simp only [Orderly, hold] at horderly
    exact h.enter hold horderly
  | forwarding k source =>
    rw [hold] at hy
    cases hy
    simp only [Orderly, hold] at horderly
    rw [forward, if_pos horderly]
    exact h.succeed hold
  | undoing k source => exact absurd (h.stands hold) id
  | agents k =>
    rw [hold] at hy
    cases hy
    simp only [Orderly, hold] at horderly
    refine h.returns hold rfl fun hf => ?_
    rcases horderly with hok | hleft
    · rw [hf] at hok
      cases hok
    · exact hleft
  | reading port r l =>
    rw [hold] at hy
    cases hy
    simp only [Orderly, hold] at horderly
    exact h.read hold horderly
  | seeking port id l =>
    rw [hold] at hy
    refine h.seek hold (fun hl k hentry => ?_) hy
    subst hl
    simp only [Orderly, hold, hentry] at horderly
    exact horderly
  | dying port id k =>
    rw [hold] at hy
    cases hy
    exact h.die hold
  | leaving port id k =>
    rw [hold] at hy
    cases hy
    exact h.leave hold
  | uncounting port id k =>
    rw [hold] at hy
    cases hy
    exact h.decrement hold
  | unmapping port id k =>
    rw [hold] at hy
    cases hy
    exact h.unmap hold
  | burying id k =>
    rw [hold] at hy
    exact h.bury hold hy

theorem Inv.next {e : Event T} (horderly : x.Orderly maxuprc e)
    (hy : next maxuprc x e = some y) : y.Inv := by
  cases e with
  | call t r =>
    rw [Master.next, h.faulted] at hy
    cases hold : x.phase t with
    | idle =>
      rw [hold] at hy
      exact h.start hold hy
    | _ =>
      rw [hold] at hy
      cases hy
  | act t a =>
    rw [Master.next, h.faulted] at hy
    exact h.act horderly hy

end

instance decidableOrderly (maxuprc : ℕ) (x : Master T) :
    ∀ e : Event T, Decidable (x.Orderly maxuprc e)
  | .call _ _ => .isTrue trivial
  | .act t a =>
    match h : x.phase t with
    | .counting k source =>
      decidable_of_iff (if x.numOfTasks (x.task k).session = maxuprc then (x.task k).tgrp = none
        else source.accepts a.ok = true) (by simp only [Orderly, h])
    | .installing _ _ | .forwarding _ _ =>
      decidable_of_iff (a.ok = true) (by simp only [Orderly, h])
    | .entering k _ =>
      decidable_of_iff (x.portTable (x.portOf k) = none) (by simp only [Orderly, h])
    | .agents k =>
      decidable_of_iff (a.ok = true ∨ x.leaves k = false) (by simp only [Orderly, h])
    | .reading _ r _ => decidable_of_iff (x.record r ≠ none) (by simp only [Orderly, h])
    | .seeking port id .deregister =>
      match hdir : x.taskDir id with
      | some ⟨k, true⟩ =>
        decidable_of_iff (port = x.portOf k ∧ ((x.task k).dead = true ∨ x.mapped port = some id))
          (by simp only [Orderly, h, hdir])
      | some ⟨_, false⟩ | none => .isTrue (by simp only [Orderly, h, hdir])
    | .seeking _ _ .postRegister | .idle | .joining _ _ | .cancelling _ | .undoing _ _
    | .dying _ _ _ | .leaving _ _ _ | .uncounting _ _ _ | .unmapping _ _ _ | .burying _ _ =>
      .isTrue (by simp only [Orderly, h])

instance decidableQuiet [Fintype T] (x : Master T) : Decidable x.Quiet :=
  inferInstanceAs (Decidable (∀ t, x.phase t = .idle))

end Master

theorem tables_agree {T : Type} [DecidableEq T] (maxuprc : ℕ) (x : Master T)
    (hrun : ReflTransGen (Under (Master.next maxuprc) (Orderly maxuprc)) boot x) : x.Agreed :=
  (invariant (fun _ _ _ hx he hy => Inv.next hx he hy) hrun (boot_inv T)).agreed

namespace Sample

def acts {T : Type} (t : T) (n : ℕ) : List (Event T) := List.replicate n (.act t ⟨true, none⟩)

def registers {T : Type} (t : T) (id port : ℕ) : List (Event T) :=
  .call t (.register .initial id port) :: acts t 6

def forks {T : Type} (t : T) (parent id port : ℕ) : List (Event T) :=
  .call t (.register (.forked parent) id port) :: acts t 5

def family : List (Event (Fin 2)) :=
  registers 0 5 1 ++ forks 1 0 6 2 ++ (.call 0 (.register (.forked 0) 7 3) :: acts 0 3) ++
    (.call 1 (.deregister 1) :: acts 1 4) ++ (.call 0 (.register .initial 8 4) :: acts 0 4) ++
    acts 1 3 ++ registers 1 5 1 ++ acts 0 2

def twice : List (Event (Fin 2)) := registers 0 5 1 ++ registers 0 6 1

end Sample

theorem tables_agree_family : ∃ x : Master (Fin 2), x.Quiet ∧ x.mapped 1 = some 5 ∧
    x.mapped 2 = some 6 ∧ x.taskDir 7 = none ∧ (∃ r ∈ x.reports, r.success = false) ∧ x.Agreed := by
  have h : check (Master.next 2) boot Sample.family (fun x => decide
      (x.Quiet ∧ x.mapped 1 = some 5 ∧ x.mapped 2 = some 6 ∧ x.taskDir 7 = none ∧
        ∃ r ∈ x.reports, r.success = false)) = true := by
    decide +kernel
  have hadmits : Admits (Master.next 2) (Orderly 2) boot Sample.family := by
    decide +kernel
  obtain ⟨x, hx, ht⟩ := exec_of_check h
  obtain ⟨hquiet, hfirst, hsecond, hrefused, hreport⟩ := of_decide_eq_true ht
  exact ⟨x, hquiet, hfirst, hsecond, hrefused, hreport, tables_agree 2 x (run_of_exec hadmits hx)⟩

theorem port_registered_twice : ∃ x : Master (Fin 2),
    ReflTransGen (Under (Master.next 25) Free) boot x ∧ ¬x.Agreed := by
  have h : check (Master.next 25) boot Sample.twice (fun x => decide
      (x.Quiet ∧ x.taskDir 6 = some ⟨1, true⟩ ∧ x.portOf 1 = 1 ∧ x.mapped 1 = some 5)) = true := by
    decide +kernel
  obtain ⟨x, hx, ht⟩ := exec_of_check h
  obtain ⟨hquiet, hentry, hport, hmapped⟩ := of_decide_eq_true ht
  refine ⟨x, run_of_exec (free_admits _ _) hx, fun hagreed => ?_⟩
  have hmine := (hagreed.tables hquiet 1 6).mpr ⟨1, hentry, hport⟩
  cases hmapped.symm.trans hmine

end MachUS.Tm.Registration
