import MachUS.Rpc.MethodInfo

namespace MachUS.Rpc

open Text Parsing List Except Parsed Nat

theorem letterOf_mem (c : UInt8) :
    (c, letterOf c) ∈ letters ∨ letterOf c = .other ∧ c ∉ letters.map Prod.fst := by
  rw [letterOf]
  cases hlookup : letters.lookup c with
  | none =>
    refine .inr ⟨rfl, fun hc => ?_⟩
    obtain ⟨e, he, rfl⟩ := mem_map.mp hc
    exact absurd (lookup_eq_none_iff.mp hlookup e he) (by simp)
  | some l =>
    obtain ⟨l₁, l₂, hl, -⟩ := lookup_eq_some_iff.mp hlookup
    exact .inl (hl ▸ mem_append_right l₁ mem_cons_self)

theorem parseRest_suffix (s : Bytes) : parseRest s <:+ s := dropWhile_suffix _

theorem skipSpaces_suffix (s : Bytes) : skipSpaces s <:+ s := dropWhile_suffix _

theorem parseNumber_suffix (n : ℤ) (s : Bytes) : (parseNumber n s).2 <:+ s := by
  induction s generalizing n with
  | nil => exact suffix_rfl
  | cons c s ih =>
    rw [parseNumber]
    split_ifs
    · exact (ih _).trans (suffix_cons c s)
    · exact suffix_rfl

theorem skipIntr_suffix (s : Bytes) : (Parsing.skipIntr s).2 <:+ s := by
  cases s with
  | nil => exact suffix_rfl
  | cons c s =>
    rw [Parsing.skipIntr]
    split_ifs
    · exact (skipSpaces_suffix _).trans (parseRest_suffix _)
    · exact suffix_rfl

theorem parseClass_suffix {str s t : Bytes} {name : Option Bytes}
    (h : parseClass str s = .ok (name, t)) : t <:+ s := by
  induction s generalizing str with
  | nil =>
    cases ok.inj h
    exact suffix_rfl
  | cons c s ih =>
    unfold parseClass at h
    dsimp only at h
    by_cases hend : endsClass c = true
    · rw [if_pos hend] at h
      cases ok.inj h
      exact suffix_rfl
    · rw [if_neg hend] at h
      split_ifs at h
      · exact (ih h).trans (suffix_cons c s)
      · exact (ih h).trans (suffix_cons c s)

def classChars (s : Bytes) : Bytes := (s.takeWhile fun c => !endsClass c).filter (· ≠ 42)

theorem parseClass_error_iff {str : Bytes} (hstr : str.length < classStrSize) (s : Bytes) :
    (∃ e, parseClass str s = .error e) ↔ classStrSize ≤ str.length + (classChars s).length := by
  induction s generalizing str with
  | nil => exact iff_of_false (by rintro ⟨e, h⟩; cases h) (not_le.mpr hstr)
  | cons c s ih =>
    unfold parseClass classChars
    dsimp only
    by_cases hend : endsClass c = true
    · rw [if_pos hend, takeWhile_cons_of_neg (by simp [hend])]
      exact iff_of_false (by rintro ⟨e, h⟩; cases h) (not_le.mpr hstr)
    · rw [if_neg hend, takeWhile_cons_of_pos (by simp [hend])]
      by_cases hstar : c = 42
      · rw [if_pos hstar, ih hstr, filter_cons_of_neg (by simp [hstar]), classChars]
      · rw [if_neg hstar, filter_cons_of_pos (by simp [hstar]), length_cons]
        split_ifs with hshort
        · rw [ih (by rwa [length_append]), length_append, length_singleton,
            add_assoc, add_comm 1, classChars]
        · exact iff_of_true ⟨_, rfl⟩ (by omega)

namespace Parsing

variable {p p' : Parsing} {s t typeInfo : Bytes} {c : UInt8}

def Unrecognized (s : Bytes) : Prop :=
  s.head? = some 60 ∨ s.head? = some 40 ∧ ∀ e ∈ portRights, ¬e.1 <+: s

def Overruns (p : Parsing) : Bytes → Prop
  | [] => False
  | c :: s => letterOf c = .separator ∧ maxArgs ≤ p.type.args.length + 1 ∨
      letterOf c = .object ∧
        ∃ u, skipSpaces (parseRest s) = 60 :: u ∧ classStrSize ≤ (classChars u).length

def Malformed (p : Parsing) : Bytes → Prop
  | [] => False
  | c :: s => letterOf c = .star ∧ 2 ≤ p.cur.indirectCnt ∨
      (letterOf c = .msgid ∨ letterOf c = .object) ∧ (skipSpaces (parseRest s)).head? ≠ some 60

inductive Reaches (typeInfo : Bytes) : Parsing → Bytes → Prop
  | start : Reaches typeInfo start typeInfo
  | step {p p' : Parsing} {s t : Bytes} : Reaches typeInfo p s → p.step s = .ok (.more t p') →
      Reaches typeInfo p' t

theorem parsePortRight_none (h : ∀ e ∈ portRights, ¬e.1 <+: s) :
    parsePortRight s = (typeMakeSend, s) := by
  have hnone : portRights.find? (fun e => e.1.isPrefixOf s) = none :=
    find?_eq_none.mpr fun e he hstarts => h e he ( isPrefixOf_iff_prefix.mp hstarts)
  rw [parsePortRight, hnone]

theorem parsePortRight_suffix (h : ∃ e ∈ portRights, e.1 <+: c :: s) :
    (parsePortRight (c :: s)).2 <:+ s := by
  obtain ⟨e, he, hstarts⟩ := h
  unfold parsePortRight
  cases hfind : portRights.find? fun e => e.1.isPrefixOf (c :: s) with
  | none =>
    exact absurd ( isPrefixOf_iff_prefix.mpr hstarts) (find?_eq_none.mp hfind e he)
  | some e =>
    have hlength : ∀ e ∈ portRights, e.1.length = e.1.length - 1 + 1 := by decide
    dsimp only
    rw [hlength e (mem_of_find?_eq_some hfind)]
    exact drop_suffix _ s

theorem number_more (h : p.number s = .more t p') : t <:+ s := by
  unfold number at h
  split_ifs at h
  · obtain ⟨rfl, -⟩ := more.inj h
    exact (parseRest_suffix _).trans (parseNumber_suffix _ _)
  · split at h
    · obtain ⟨rfl, -⟩ := more.inj h
      exact ((parseRest_suffix _).trans (parseNumber_suffix _ _)).trans
        ((suffix_cons _ _).trans (suffix_cons _ _))
    · obtain ⟨rfl, -⟩ := more.inj h
      exact (parseRest_suffix _).trans (suffix_cons _ _)
    · obtain ⟨rfl, -⟩ := more.inj h
      exact (parseRest_suffix _).trans (parseNumber_suffix _ _)

theorem skipped_suffix {u : Bytes} (h : skipSpaces (parseRest s) = c :: u) : u <:+ s :=
  (suffix_cons c u).trans (h ▸ (skipSpaces_suffix _).trans (parseRest_suffix s))

theorem messageId_more (h : p.messageId s = .more t p') : t <:+ s := by
  rw [messageId] at h
  split at h
  · next u hu =>
    obtain ⟨rfl, -⟩ := more.inj h
    exact ((parseRest_suffix _).trans (parseNumber_suffix _ _)).trans (skipped_suffix hu)
  · cases h

theorem remoteCall_more (h : p.remoteCall s = .more t p') : t <:+ s := by
  rw [remoteCall] at h
  have hfirst : (skipIntr (skipSpaces (parseRest s))).2 <:+ s :=
    (skipIntr_suffix _).trans ((skipSpaces_suffix _).trans (parseRest_suffix s))
  obtain ⟨rfl, -⟩ := more.inj h
  refine (skipIntr_suffix _).trans (IsSuffix.trans ?_ hfirst)
  split
  · next u hu =>
    change (skipIntr (skipSpaces (parseRest s))).2 = 60 :: u at hu
    rw [hu]
    exact ((parseRest_suffix _).trans (parseNumber_suffix _ _)).trans (suffix_cons _ _)
  · exact suffix_rfl

theorem object_more (h : p.object s = .ok (.more t p')) : t <:+ s := by
  rw [object] at h
  split at h
  · next u hu =>
    cases hclass : parseClass [] u with
    | error =>
      rw [hclass] at h
      cases h
    | ok r =>
      rw [hclass] at h
      obtain ⟨rfl, -⟩ := more.inj (ok.inj h)
      exact (parseRest_suffix _).trans ((parseClass_suffix hclass).trans (skipped_suffix hu))
  · cases h

theorem step_more (h : p.step (c :: s) = .ok (.more t p')) :
    t <:+ s ∨ Unrecognized (c :: s) ∧ t = c :: s := by
  have hmem := letterOf_mem c
  have hrest {q : Parsing} (h : (.ok (.more (parseRest s) q) : Outcome Parsed) = .ok (.more t p')) :
      t <:+ s := by
    obtain ⟨rfl, -⟩ := more.inj (ok.inj h)
    exact parseRest_suffix s
  rw [step] at h
  cases hletter : letterOf c with
  | star =>
    rw [hletter] at h
    rw [indirect] at h
    split_ifs at h
    · cases h
    · exact .inl (hrest h)
  | input => rw [hletter] at h; exact .inl (hrest h)
  | copy => rw [hletter] at h; exact .inl (hrest h)
  | output => rw [hletter] at h; exact .inl (hrest h)
  | dealloc => rw [hletter] at h; exact .inl (hrest h)
  | msgid => rw [hletter] at h; exact .inl (messageId_more (ok.inj h))
  | rpc => rw [hletter] at h; exact .inl (remoteCall_more (ok.inj h))
  | element => rw [hletter] at h; exact .inl (hrest h)
  | object => rw [hletter] at h; exact .inl (object_more h)
  | bracket => rw [hletter] at h; exact .inl (number_more (ok.inj h))
  | string => rw [hletter] at h; exact .inl (hrest h)
  | port => rw [hletter] at h; exact .inl (hrest h)
  | blank =>
    rw [hletter] at h
    obtain ⟨rfl, -⟩ := more.inj (ok.inj h)
    exact .inl suffix_rfl
  | separator =>
    rw [hletter] at h
    rw [separator] at h
    split_ifs at h
    obtain ⟨rfl, -⟩ := more.inj (ok.inj h)
    exact .inl suffix_rfl
  | right =>
    rw [hletter] at h hmem
    obtain rfl : c = 40 := by simpa [letters] using hmem
    have hrest : parseRest (parsePortRight (40 :: s)).2 = t := (more.inj (ok.inj h)).1
    rw [← hrest]
    by_cases hright : ∀ e ∈ portRights, ¬e.1 <+: 40 :: s
    · rw [parsePortRight_none hright]
      exact .inr ⟨.inr ⟨rfl, hright⟩, rfl⟩
    · push Not at hright
      exact .inl ((parseRest_suffix _).trans (parsePortRight_suffix hright))
  | other =>
    rw [hletter] at h hmem
    obtain ⟨rfl, -⟩ := more.inj (ok.inj h)
    have hstops : ∀ k, isStop k = true → k = 60 ∨ k ∈ letters.map Prod.fst := by
      intro k hk
      exact (by simp [letters] : ∀ k ∈ [37, 44, 91, 59, 32, 58, 60, 42, 40],
        k = 60 ∨ k ∈ letters.map Prod.fst) k
        (contains_iff_mem.mp hk)
    by_cases hstop : isStop c = true
    · rcases hmem with hmem | ⟨-, hmem⟩
      · simp [letters] at hmem
      · obtain rfl := (hstops c hstop).resolve_right hmem
        exact .inr ⟨.inl rfl, rfl⟩
    · rw [parseRest, dropWhile_cons_of_pos (by simp [hstop])]
      exact .inl (parseRest_suffix s)

theorem step_unrecognized (p : Parsing) (h : Unrecognized s) : ∃ p', p.step s = .ok (.more s p') := by
  cases s with
  | nil => simp [Unrecognized] at h
  | cons c s =>
    rcases h with h | ⟨h, hrights⟩
    · cases h
      exact ⟨p, rfl⟩
    · cases h
      refine ⟨p.withCur { p.cur with name := typeMakeSend }, ?_⟩
      change ok (more (parseRest (parsePortRight (40 :: s)).2)
        (p.withCur { p.cur with name := (parsePortRight (40 :: s)).1 })) = _
      rw [parsePortRight_none hrights]
      rfl

theorem object_error_iff : (∃ e, p.object s = .error e) ↔
    ∃ u, skipSpaces (parseRest s) = 60 :: u ∧ classStrSize ≤ (classChars u).length := by
  have hempty : ([] : Bytes).length < classStrSize := by decide
  have hclass := parseClass_error_iff hempty
  simp only [length_nil, zero_add] at hclass
  simp only [← hclass]
  unfold object
  split
  · next u hu =>
    rw [hu]
    cases hparsed : parseClass [] u with
    | error e => exact iff_of_true ⟨e, rfl⟩ ⟨u, rfl, e, hparsed⟩
    | ok r =>
      refine iff_of_false (by rintro ⟨e, h⟩; cases h) ?_
      rintro ⟨u', hu', e, h⟩
      obtain rfl := (cons.inj hu').2
      cases hparsed.symm.trans h
  · next hne =>
    refine iff_of_false (by rintro ⟨e, h⟩; cases h) ?_
    rintro ⟨u, hu, -⟩
    exact hne u hu

theorem step_error_iff : (∃ e, p.step s = .error e) ↔ p.Overruns s := by
  cases s with
  | nil => exact iff_of_false (by rintro ⟨e, h⟩; cases h) id
  | cons c s =>
    rw [step, Overruns, ← object_error_iff (p := p)]
    cases hletter : letterOf c with
    | object => simp
    | separator =>
      simp only [separator, Parsing.close, length_append, length_singleton]
      split_ifs with hargs
      · simp [hargs]
      · simp; omega
    | _ => simp

theorem messageId_rejects_iff :
    p.messageId s = .done none ↔ ∀ u, skipSpaces (parseRest s) ≠ 60 :: u := by
  unfold messageId
  split
  · next u hu => simp [hu]
  · next hne => exact iff_of_true rfl hne

theorem object_rejects_iff :
    p.object s = .ok (.done none) ↔ ∀ u, skipSpaces (parseRest s) ≠ 60 :: u := by
  unfold object
  split
  · next u hu =>
    refine iff_of_false ?_ fun h => h u hu
    cases parseClass [] u with
    | error => exact fun h => by cases h
    | ok => exact fun h => by cases h
  · next hne => exact iff_of_true rfl hne

theorem step_rejects_iff : p.step s = .ok (.done none) ↔ p.Malformed s := by
  cases s with
  | nil => exact iff_of_false (by simp [step]) id
  | cons c s =>
    have hmissing : (∀ u, skipSpaces (parseRest s) ≠ 60 :: u) ↔
        (skipSpaces (parseRest s)).head? ≠ some 60 := by
      cases skipSpaces (parseRest s) with
      | nil => simp
      | cons c u => simp
    rw [step, Malformed, ← hmissing]
    cases hletter : letterOf c with
    | star =>
      simp only [indirect]
      split_ifs with hcnt
      · simp [hcnt]
      · simp [hcnt]
    | msgid => simp [messageId_rejects_iff]
    | object => simp [object_rejects_iff]
    | bracket =>
      simp only [number]
      split_ifs
      · simp
      · split <;> simp
    | separator =>
      simp only [separator]
      split_ifs <;> simp
    | _ => simp [remoteCall]

def Clean (typeInfo : Bytes) : Prop :=
  ∀ p t, Reaches typeInfo p t → ¬Unrecognized t ∧ ¬p.Overruns t

theorem loop_returns {fuel : ℕ} (hfuel : s.length < fuel) (h : Clean typeInfo)
    (hreach : Reaches typeInfo p s) : ∃ r, p.loop fuel s = .ok r ∧
      (r = none → ∃ p' t, Reaches typeInfo p' t ∧ p'.Malformed t) := by
  induction fuel generalizing p s with
  | zero => exact absurd hfuel (not_lt_zero _)
  | succ fuel ih =>
    obtain ⟨hknown, hfits⟩ := h p s hreach
    rw [loop]
    cases hstep : p.step s with
    | error e => exact absurd (step_error_iff.mp ⟨e, hstep⟩) hfits
    | ok r =>
      cases r with
      | done result =>
        refine ⟨result, rfl, ?_⟩
        rintro rfl
        exact ⟨p, s, hreach, step_rejects_iff.mp hstep⟩
      | more t p' =>
        refine ih ?_ (hreach.step hstep)
        cases s with
        | nil => cases hstep
        | cons c s =>
          have hshorter := (step_more hstep).resolve_right fun hstuck => hknown hstuck.1
          exact (lt_succ_of_le hshorter.length_le).trans_le (le_of_lt_succ hfuel)

theorem loop_reaches {fuel : ℕ} {r : Option ArgType} (h : start.loop fuel typeInfo = .ok r)
    (hreach : Reaches typeInfo p s) : ∃ fuel', p.loop (fuel' + 1) s = .ok r := by
  induction hreach with
  | start =>
    cases fuel with
    | zero => cases h
    | succ fuel => exact ⟨fuel, h⟩
  | step hreach hstep ih =>
    obtain ⟨fuel', ih⟩ := ih
    rw [loop, hstep] at ih
    cases fuel' with
    | zero => cases ih
    | succ fuel' => exact ⟨fuel', ih⟩

theorem loop_unrecognized (h : Unrecognized s) (fuel : ℕ) (p : Parsing) :
    p.loop fuel s = .error .endlessLoop := by
  induction fuel generalizing p with
  | zero => rfl
  | succ fuel ih =>
    obtain ⟨p', hstep⟩ := step_unrecognized p h
    rw [loop, hstep]
    exact ih p'

theorem clean_of_loop {fuel : ℕ} {r : Option ArgType} (h : start.loop fuel typeInfo = .ok r) :
    Clean typeInfo := by
  intro p t hreach
  obtain ⟨fuel', hloop⟩ := loop_reaches h hreach
  constructor
  · intro hstuck
    cases hloop.symm.trans (loop_unrecognized hstuck _ p)
  · intro hover
    obtain ⟨e, hstep⟩ := step_error_iff.mpr hover
    rw [loop, hstep] at hloop
    cases hloop

theorem Reaches.suffix (h : Reaches typeInfo p s) : s <:+ typeInfo := by
  induction h with
  | start => exact suffix_rfl
  | @step p p' s t hreach hstep ih =>
    cases s with
    | nil => cases hstep
    | cons c s =>
      rcases step_more hstep with hsuffix | ⟨-, rfl⟩
      · exact (hsuffix.trans (suffix_cons c s)).trans ih
      · exact ih

end Parsing

theorem parse_arg_info_returns_iff (typeInfo : Bytes) :
    (∀ p t, Reaches typeInfo p t → t <:+ typeInfo) ∧
      ((∃ r, parseArgInfo typeInfo = .ok r ∧
          (r = none ↔ typeInfo = [] ∨ ∃ p t, Reaches typeInfo p t ∧ p.Malformed t)) ↔
        Clean typeInfo) ∧
      (¬Clean typeInfo → ∀ fuel, ∃ e, start.loop fuel typeInfo = .error e) := by
  refine ⟨fun p t h => h.suffix, ⟨?_, fun hclean => ?_⟩, fun hclean fuel => ?_⟩
  · rintro ⟨r, hr, -⟩
    rw [parseArgInfo] at hr
    split_ifs at hr with hempty
    · rw [hempty]
      obtain ⟨r, hloop⟩ : ∃ r, start.loop 1 [] = .ok r := ⟨_, rfl⟩
      exact clean_of_loop hloop
    · exact clean_of_loop hr
  · rw [parseArgInfo]
    split_ifs with hempty
    · exact ⟨none, rfl, iff_of_true rfl (.inl hempty)⟩
    · obtain ⟨r, hr, hnone⟩ := loop_returns (lt_succ_self _) hclean .start
      refine ⟨r, hr, fun h => .inr (hnone h), fun h => ?_⟩
      obtain ⟨p, t, hreach, hmalformed⟩ := h.resolve_left hempty
      obtain ⟨fuel', hloop⟩ := loop_reaches hr hreach
      rw [loop, step_rejects_iff.mpr hmalformed] at hloop
      exact (ok.inj hloop).symm
  · cases hloop : start.loop fuel typeInfo with
    | error e => exact ⟨e, rfl⟩
    | ok r => exact absurd (clean_of_loop hloop) hclean

theorem unknown_right_loops :
    ¬∃ fuel, start.loop fuel [40, 83, 69, 78, 68, 41] ≠ .error .endlessLoop := by
  rintro ⟨fuel, hends⟩
  exact hends (loop_unrecognized (.inr ⟨rfl, by decide⟩) fuel start)

end MachUS.Rpc
