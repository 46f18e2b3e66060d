import MachUS.Ux.Protections

namespace MachUS.Ux.Prot

def nsAuthidWildcard : Id := 0

-- The scan of the ACL for one credential, and whether it returns ERR_SUCCESS.
def scanAcl (access : Rights) (curAuthid : Id) : Acl → Rights → Rights × Bool
  | [], maxAccess => (maxAccess, false)
  | e :: acl, maxAccess =>
    if e.authid = curAuthid ∨ e.authid = nsAuthidWildcard then
      let maxAccess := maxAccess ||| e.rights
      if maxAccess &&& access = access then (maxAccess, true)
      else scanAcl access curAuthid acl maxAccess
    else scanAcl access curAuthid acl maxAccess

def scanCred (privid : Id) (acl : Acl) (access : Rights) : List Id → Rights → Bool
  | [], _ => false
  | curAuthid :: cred, maxAccess =>
    if curAuthid = privid then
      access &&& nsrExecute = 0 || acl.any fun e => e.rights &&& nsrExecute ≠ 0
    else
      let scanned := scanAcl access curAuthid acl maxAccess
      scanned.2 || scanCred privid acl access cred scanned.1

def nsCheckAccess (privid : Id) (acl : Acl) (access : Rights) (cred : List Id) : Bool :=
  scanCred privid acl access cred 0

def AclEntry.Matches (e : AclEntry) (id : Id) : Prop := e.authid = id ∨ e.authid = nsAuthidWildcard

def PrivilegedFor (privid : Id) (acl : Acl) (access : Rights) (cred : List Id) : Prop :=
  privid ∈ cred ∧ (access &&& nsrExecute = 0 ∨ ∃ e ∈ acl, e.rights &&& nsrExecute ≠ 0)

def InUnion (acl : Acl) (access : Rights) (cred : List Id) : Prop :=
  ∀ i, access.getLsbD i = true → ∃ e ∈ acl, (∃ id ∈ cred, e.Matches id) ∧ e.rights.getLsbD i = true

section Rights

variable {access maxAccess : Rights} (privid curAuthid : Id) (acl : Acl) (cred : List Id)

theorem and_eq_self_iff : maxAccess &&& access = access ↔
    ∀ i, access.getLsbD i = true → maxAccess.getLsbD i = true := by
  constructor
  · intro h i hi
    rw [← h, BitVec.getLsbD_and, Bool.and_eq_true] at hi
    exact hi.1
  · intro h
    refine BitVec.eq_of_getLsbD_eq fun i _ => ?_
    rw [BitVec.getLsbD_and]
    cases hi : access.getLsbD i with
    | false => rw [Bool.and_false]
    | true => rw [h i hi, Bool.and_true]

theorem and_execute_ne_zero : access &&& nsrExecute ≠ 0 ↔ access.getLsbD 6 = true := by
  rw [show nsrExecute = BitVec.twoPow 32 6 by decide, BitVec.and_twoPow]
  split_ifs with hbit
  · exact iff_of_true (by decide) hbit
  · exact iff_of_false (by decide) hbit

def Gathered (maxAccess : Rights) (acl : Acl) (id : Id) (i : ℕ) : Prop :=
  maxAccess.getLsbD i = true ∨ ∃ e ∈ acl, e.Matches id ∧ e.rights.getLsbD i = true

theorem scanAcl_spec (hmax : maxAccess &&& access ≠ access) :
    ((scanAcl access curAuthid acl maxAccess).2 = true ↔
        ∀ i, access.getLsbD i = true → Gathered maxAccess acl curAuthid i) ∧
      ((scanAcl access curAuthid acl maxAccess).2 = false → ∀ i,
        (scanAcl access curAuthid acl maxAccess).1.getLsbD i = true ↔
          Gathered maxAccess acl curAuthid i) := by
  induction acl generalizing maxAccess with
  | nil =>
    have hnone := mt and_eq_self_iff.mpr hmax
    simpa [scanAcl, Gathered] using hnone
  | cons e acl ih =>
    rw [scanAcl]
    by_cases hmatch : e.Matches curAuthid
    · have hsplit (i : ℕ) : Gathered (maxAccess ||| e.rights) acl curAuthid i ↔
          Gathered maxAccess (e :: acl) curAuthid i := by
        simp [Gathered, hmatch, or_assoc]
      rw [if_pos (show e.authid = curAuthid ∨ _ from hmatch)]
      simp only [← hsplit]
      split_ifs with hall
      · exact ⟨iff_of_true rfl fun i hi => .inl (and_eq_self_iff.mp hall i hi), by rintro ⟨⟩⟩
      · exact ih hall
    · have hsame (i : ℕ) : Gathered maxAccess acl curAuthid i ↔
          Gathered maxAccess (e :: acl) curAuthid i := by
        simp [Gathered, hmatch]
      rw [if_neg (show ¬(e.authid = curAuthid ∨ _) from hmatch)]
      simp only [← hsame]
      exact ih hmax

theorem scanCred_iff (hmax : maxAccess &&& access ≠ access)
    (hfrom : ∀ i, maxAccess.getLsbD i = true → ∃ e ∈ acl, e.rights.getLsbD i = true) :
    scanCred privid acl access cred maxAccess = true ↔ PrivilegedFor privid acl access cred ∨
      ∀ i, access.getLsbD i = true → maxAccess.getLsbD i = true ∨
        ∃ e ∈ acl, (∃ id ∈ cred, e.Matches id) ∧ e.rights.getLsbD i = true := by
  induction cred generalizing maxAccess with
  | nil =>
    have hnone := mt and_eq_self_iff.mpr hmax
    simpa [scanCred, PrivilegedFor] using hnone
  | cons curAuthid cred ih =>
    rw [scanCred]
    by_cases hpriv : curAuthid = privid
    · rw [if_pos hpriv]
      have hhead : PrivilegedFor privid acl access (curAuthid :: cred) ↔
          (access &&& nsrExecute = 0 || acl.any fun e => e.rights &&& nsrExecute ≠ 0) = true := by
        simp [PrivilegedFor, hpriv]
      rw [← hhead]
      refine ⟨.inl, fun h => h.elim id fun hall => ⟨by simp [hpriv], ?_⟩⟩
      by_cases hexec : access &&& nsrExecute = 0
      · exact .inl hexec
      · right
        rcases hall 6 (and_execute_ne_zero.mp hexec) with hbit | ⟨e, he, -, hbit⟩
        · obtain ⟨e, he, hbit⟩ := hfrom 6 hbit
          exact ⟨e, he, and_execute_ne_zero.mpr hbit⟩
        · exact ⟨e, he, and_execute_ne_zero.mpr hbit⟩
    · rw [if_neg hpriv]
      obtain ⟨hok, hrest⟩ := scanAcl_spec curAuthid acl hmax
      have hpriv' : PrivilegedFor privid acl access (curAuthid :: cred) ↔
          PrivilegedFor privid acl access cred := by
        simp [PrivilegedFor, Ne.symm hpriv]
      have hsplit (i : ℕ) : Gathered maxAccess acl curAuthid i ∨
          (∃ e ∈ acl, (∃ id ∈ cred, e.Matches id) ∧ e.rights.getLsbD i = true) ↔
          maxAccess.getLsbD i = true ∨ ∃ e ∈ acl, (∃ id ∈ curAuthid :: cred, e.Matches id) ∧
            e.rights.getLsbD i = true := by
        simp only [Gathered, List.exists_mem_cons_iff, or_and_right, and_or_left, exists_or,
          or_assoc]
      simp only [hpriv', ← hsplit, Bool.or_eq_true]
      cases hscan : (scanAcl access curAuthid acl maxAccess).2 with
      | true =>
        refine iff_of_true (.inl rfl) (.inr fun i hi => .inl (hok.mp hscan i hi))
      | false =>
        have hbits := hrest hscan
        have hmore := mt (fun h => hok.mpr fun i hi => (hbits i).mp (and_eq_self_iff.mp h i hi))
          (by simp [hscan])
        simp only [Bool.false_eq_true, false_or, ← hbits]
        refine ih hmore fun i hi => ?_
        rcases (hbits i).mp hi with hbit | ⟨e, he, -, hbit⟩
        · exact hfrom i hbit
        · exact ⟨e, he, hbit⟩

variable {privid acl cred}

theorem nsCheckAccess_iff (haccess : access ≠ 0) : nsCheckAccess privid acl access cred = true ↔
    PrivilegedFor privid acl access cred ∨ InUnion acl access cred := by
  have hmax : (0 : Rights) &&& access ≠ access := by simpa using haccess.symm
  have hiff := scanCred_iff privid acl cred hmax (by simp)
  simpa [nsCheckAccess, InUnion] using hiff

theorem granted_mono {acl' : Acl} {cred' : List Id} (hacl : acl ⊆ acl') (hcred : cred ⊆ cred')
    (h : PrivilegedFor privid acl access cred ∨ InUnion acl access cred) :
    PrivilegedFor privid acl' access cred' ∨ InUnion acl' access cred' := by
  rcases h with ⟨hpriv, hexec⟩ | hall
  · exact .inl ⟨hcred hpriv, hexec.imp_right fun ⟨e, he, hbit⟩ => ⟨e, hacl he, hbit⟩⟩
  · refine .inr fun i hi => ?_
    obtain ⟨e, he, ⟨id, hid, hmatch⟩, hbit⟩ := hall i hi
    exact ⟨e, hacl he, ⟨id, hcred hid, hmatch⟩, hbit⟩

end Rights

theorem check_access_iff (privid : Id) (access : Rights) (haccess : access ≠ 0) (acl : Acl)
    (cred : List Id) :
    (nsCheckAccess privid acl access cred = true ↔
      PrivilegedFor privid acl access cred ∨ InUnion acl access cred) ∧
    (∀ acl' cred', acl.Perm acl' → cred.Perm cred' →
      nsCheckAccess privid acl' access cred' = nsCheckAccess privid acl access cred) ∧
    ∀ acl' cred', acl ⊆ acl' → cred ⊆ cred' → nsCheckAccess privid acl access cred = true →
      nsCheckAccess privid acl' access cred' = true := by
  have hmono {acl acl' : Acl} {cred cred' : List Id} (hacl : acl ⊆ acl') (hcred : cred ⊆ cred')
      (h : nsCheckAccess privid acl access cred = true) :
      nsCheckAccess privid acl' access cred' = true :=
    (nsCheckAccess_iff haccess).mpr (granted_mono hacl hcred ((nsCheckAccess_iff haccess).mp h))
  refine ⟨nsCheckAccess_iff haccess, fun acl' cred' hacl hcred => ?_,
    fun _ _ hacl hcred => hmono hacl hcred⟩
  exact Bool.eq_iff_iff.mpr
    ⟨hmono hacl.symm.subset hcred.symm.subset, hmono hacl.subset hcred.subset⟩

theorem check_access_of_two_entries :
    nsCheckAccess 1 [⟨6, nsrWrite⟩, ⟨5, nsrRead⟩] (nsrRead ||| nsrWrite) [6, 5] =
      nsCheckAccess 1 [⟨5, nsrRead⟩, ⟨6, nsrWrite⟩] (nsrRead ||| nsrWrite) [5, 6] :=
  (check_access_iff 1 _ (by decide) _ _).2.1 _ _ (List.Perm.swap _ _ _) (List.Perm.swap _ _ _)

theorem wildcard_grants :
    nsCheckAccess 1 [⟨nsAuthidWildcard, nsrRead⟩] nsrRead [5] = true ∧ (1 : Id) ∉ [(5 : Id)] ∧
      ∀ e ∈ ([⟨nsAuthidWildcard, nsrRead⟩] : Acl), e.authid ∉ [(5 : Id)] := by
  decide

end MachUS.Ux.Prot
