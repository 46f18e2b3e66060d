import MachUS.Ufs.BufferMoves

namespace MachUS.Ufs

open Owner BufEntry

section Views

variable {Thread β : Type} {s : ReadCache Thread β} {g : Ledger Thread} {bp i x : ℕ}

theorem view_eq {s' : ReadCache Thread β} {g' : Ledger Thread} (hd : s'.desc x = s.desc x)
    (he : g'.entry x = g.entry x) (hf : x ∈ g'.free ↔ x ∈ g.free)
    (hb : ∀ i, x ∈ g'.bucket i ↔ x ∈ g.bucket i) (hr : x ∈ g'.reclaim ↔ x ∈ g.reclaim)
    (hm : s'.made ≤ x ↔ s.made ≤ x) (ho : x ∈ s'.opened ↔ x ∈ s.opened)
    (hh : x ∈ s'.hits.map Prod.fst ↔ x ∈ s.hits.map Prod.fst)
    (hl : s'.record.linked x = s.record.linked x)
    (hrc : s'.record.reclaimable x = s.record.reclaimable x)
    (hfr : s'.record.freed x = s.record.freed x) : s'.view g' x = s.view g x := by
  simp only [ReadCache.view, hd, he, hf, hb, hr, hm, ho, hh, hl, hrc, hfr]

end Views

theorem hooker_none {Thread : Type} {hooker : Option (Thread × Bool)}
    (h : (∀ x, hooker ≠ some (x, true)) ∧ ∀ x, hooker ≠ some (x, false)) : hooker = none := by
  rcases hooker with _ | ⟨x, _ | _⟩
  · rfl
  · exact absurd rfl (h.2 x)
  · exact absurd rfl (h.1 x)

namespace BufView.Settled

variable {Thread β : Type} {v : BufView Thread β} {t : Thread} {r : BlockRange} {n : ℕ}

section

variable (h : v.Settled)

include h

theorem popped (howner : v.entry.owner = .free) : Settled { v with
      entry := { v.entry with owner := .thread t .filling }, free := False, freed := false } := by
  cases h
  constructor <;> simp_all [InHash, Ranged, Fits]

theorem allocated (howner : v.entry.owner = .unmade) : Settled { v with
      entry := { v.entry with owner := .thread t .filling }, unmade := False,
      desc := { v.desc with buf := (none : Option (List β)) } } := by
  cases h
  constructor <;> simp_all [InHash, Ranged, Fits]

theorem reclaimed (howner : v.entry.owner = .linked)
    (hstate : v.desc.state = .cachedValid) (hreclaim : v.reclaim) :
    Settled { v with
      entry := { v.entry with owner := .thread t .evicting },
      reclaim := False, reclaimable := false,
      desc := { v.desc with state := .limbo } } := by
  cases h
  constructor <;> simp_all [InHash, Ranged, Fits, Cached, Over]

theorem evicted (howner : v.entry.owner = .thread t .evicting) : Settled { v with
      entry := { v.entry with owner := .thread t .filling }, bucket := fun _ => False,
      linked := false } := by
  cases h
  constructor <;> simp_all [InHash, Ranged, Fits]

theorem stripped (howner : v.entry.owner = .thread t .filling) : Settled { v with
      desc := v.desc.initBuf } := by
  cases h
  constructor <;> simp_all [InHash, Ranged, Fits]

theorem filled (howner : v.entry.owner = .thread t .filling) (hr : r.InRegion) : Settled { v with
      entry := { v.entry with owner := .thread t (.linking true), op := .soon },
      desc := ⟨r, n, v.desc.buf, .cachedNotValid, v.desc.error⟩ } := by
  cases h
  constructor <;> simp_all [InHash, Ranged, Fits]

end

variable {fresh : Bool}

section

variable (h : v.Settled)

include h

theorem installing (howner : v.entry.owner = .thread t (.linking fresh)) :
    v.entry.hooker = none ∧ ∀ t', v.entry.op ≠ .thread t' := by
  have hfits := h.fits
  cases fresh <;> simp only [Fits, howner] at hfits <;> simp [hfits]

theorem linkedIn (howner : v.entry.owner = .thread t (.linking fresh)) : Settled { v with
      entry := { v.entry with owner := .linked, hooker := some (t, fresh) },
      bucket := fun i => cacheHash v.desc.range.blkno = i, linked := true } := by
  cases h
  cases fresh <;> constructor <;> simp_all [InHash, Ranged, Fits, Cached,
    Ongoing, Over, Fresh, Stale]

theorem givenUp (howner : v.entry.owner = .thread t (.linking fresh)) : Settled { v with
      entry := { v.entry with owner := .thread t .freeing, op := .none } } := by
  cases h
  cases fresh <;> constructor <;> simp_all [InHash, Ranged, Fits]

theorem claimedValid (howner : v.entry.owner = .linked) (hstate : v.desc.state = .cachedValid) :
    Settled { v with
      entry := { v.entry with owner := .thread t .giving },
      bucket := fun _ => False, linked := false,
      desc := { v.desc with state := .claimedValid } } := by
  cases h
  constructor <;> simp_all [InHash, Ranged, Fits, Cached, Claimed]

theorem claimedNotValid (howner : v.entry.owner = .linked)
    (hstate : v.desc.state = .cachedNotValid) :
    Settled { v with
      entry := { v.entry with owner := .thread t .giving },
      bucket := fun _ => False, linked := false,
      desc := { v.desc with state := .claimedNotValid } } := by
  cases h
  constructor <;> simp_all [InHash, Ranged, Fits, Cached, Claimed]

theorem given (howner : v.entry.owner = .thread t .giving) (hhooker : v.entry.hooker = none) :
    Settled { v with
      entry := { v.entry with owner := .hit },
      reclaim := False, reclaimable := false, hit := True } := by
  cases h
  constructor <;> simp_all [InHash, Ranged, Fits]

theorem discarded (howner : v.entry.owner = .thread t .discarding)
    (hhooker : v.entry.hooker = none) :
    Settled { v with
      entry := { v.entry with owner := .thread t .freeing },
      reclaim := False, reclaimable := false } := by
  cases h
  constructor <;> simp_all [InHash, Ranged, Fits, Over]

theorem taken (howner : v.entry.owner = .hit) : Settled { v with
      entry := { v.entry with owner := .thread t .taking }, hit := False } := by
  obtain ⟨hfree, hbucket, hfits, hunmade, hopened, hhit, hlinked, hlisted, hfreed, hregion⟩ := h
  constructor <;> simp_all [InHash, Ranged, Fits]
  exact hfits.2.1 ▸ hfits.1

theorem hooking (hhooker : v.entry.hooker = some (t, fresh)) :
    ¬v.reclaim ∧ v.entry.op ≠ .thread t ∧ (fresh = true → v.entry.op = .soon) ∧
      ∀ t', v.entry.owner ≠ .thread t' .taking := by
  have hfits := h.fits
  obtain ⟨desc, ⟨owner, hooker, op⟩, free, bucket, reclaim, unmade, opened, hit, linked, listed,
    freed⟩ := v
  obtain rfl : hooker = some (t, fresh) := hhooker
  rcases owner with _ | _ | _ | _ | ⟨t', _ | _ | _ | (_ | _) | _ | _ | _ | _⟩ <;>
    simp only [Fits, Cached, Claimed, Ongoing, Over, Fresh, Stale] at hfits <;>
    cases fresh <;> simp_all

theorem hookedIn (hhooker : v.entry.hooker = some (t, fresh)) : Settled { v with
      entry := { v.entry with hooker := none, op := if fresh then .opened else v.entry.op },
      reclaim := True, reclaimable := true, opened := fresh = true ∨ v.opened } := by
  obtain ⟨hfree, hbucket, hfits, hunmade, hopened, hhit, hlinked, hlisted, hfreed, hregion⟩ := h
  obtain ⟨desc, ⟨owner, hooker, op⟩, free, bucket, reclaim, unmade, opened, hit, linked, listed,
    freed⟩ := v
  obtain rfl : hooker = some (t, fresh) := hhooker
  rcases owner with _ | _ | _ | _ | ⟨t', _ | _ | _ | (_ | _) | _ | _ | _ | _⟩
  all_goals simp only [Fits, reduceCtorEq, false_and, and_false] at hfits
  all_goals
    cases fresh <;> constructor <;> simp_all [InHash, Ranged, Fits, Cached,
      Claimed, Ongoing, Over, Fresh, Stale]

theorem pending (hnone : v.entry.op ≠ .none) (hsoon : v.entry.op ≠ .soon) : v.entry.hooker = none ∧
      (v.entry.owner = .linked ∧ (v.desc.state = .cachedNotValid ∨ v.desc.state = .mustFree) ∨
        (v.entry.owner = .hit ∨
          ∃ t, v.entry.owner = .thread t .giving ∨ v.entry.owner = .thread t .taking) ∧
          v.desc.state = .claimedNotValid) := by
  have hfits := h.fits
  obtain ⟨desc, ⟨owner, hooker, op⟩, free, bucket, reclaim, unmade, opened, hit, linked, listed,
    freed⟩ := v
  have hnot {hooker : Option (Thread × Bool)} (ho : Ongoing hooker op) : hooker = none :=
    hooker_none ⟨fun x hx => hsoon (ho.2.1.mpr ⟨x, hx⟩), fun x hx => ho.2.2 ⟨x, hx⟩⟩
  rcases owner with _ | _ | _ | _ | ⟨t, _ | _ | _ | (_ | _) | _ | _ | _ | _⟩ <;>
    simp only [Fits, Cached, Claimed, Over] at hfits <;> grind

theorem called (hop : v.entry.op = .opened) : Settled { v with
      entry := { v.entry with op := .thread t }, opened := False } := by
  obtain ⟨hnone, hcase⟩ := h.pending (by simp [hop]) (by simp [hop])
  cases h
  rcases hcase with ⟨howner, hstate | hstate⟩ | ⟨howner | ⟨t', howner | howner⟩, hstate⟩ <;>
    constructor <;> simp_all [InHash, Fits, Cached, Claimed, Ongoing, Over, Fresh, Stale]

theorem abandoned (hop : v.entry.op = .thread t)
    (hstate : v.desc.state = .cachedNotValid ∨ v.desc.state = .mustFree) :
    Settled { v with
      entry := { v.entry with owner := .thread t .unlinking, op := .none },
      desc := { v.desc with state := .limbo } } := by
  obtain ⟨hnone, hcase⟩ := h.pending (by simp [hop]) (by simp [hop])
  cases h
  rcases hcase with ⟨howner, -⟩ | ⟨-, hclaimed⟩
  · constructor <;> simp_all [InHash, Ranged, Fits]
  · simp [hclaimed] at hstate

end

variable {d : BufDesc β}

section

variable (h : v.Settled)

include h

theorem dismissed (hop : v.entry.op = .thread t)
    (hstate : v.desc.state = .mustFree) (hrange : d.range = v.desc.range)
    (hd : d.state = .mustFree) :
    Settled { v with
      entry := { v.entry with owner := .thread t .unlinking, op := .none }, desc := d } := by
  obtain ⟨hnone, hcase⟩ := h.pending (by simp [hop]) (by simp [hop])
  cases h
  rcases hcase with ⟨howner, -⟩ | ⟨-, hclaimed⟩
  · constructor <;> simp_all [InHash, Ranged, Fits]
  · simp [hclaimed] at hstate

theorem validated (hop : v.entry.op = .thread t)
    (hstate : v.desc.state = .cachedNotValid) (hrange : d.range = v.desc.range)
    (hd : d.state = .cachedValid) :
    Settled { v with
      entry := { v.entry with op := .none }, desc := d } := by
  obtain ⟨hnone, hcase⟩ := h.pending (by simp [hop]) (by simp [hop])
  cases h
  rcases hcase with ⟨howner, -⟩ | ⟨-, hclaimed⟩
  · constructor <;> simp_all [InHash, Fits, Cached, Over, Fresh]
  · simp [hclaimed] at hstate

theorem concluded (hop : v.entry.op = .thread t)
    (hstate : v.desc.state = .claimedNotValid) (hrange : d.range = v.desc.range)
    (hd : d.state = .claimedValid ∨ d.state = .mustFree) :
    Settled { v with
      entry := { v.entry with op := .none }, desc := d } := by
  obtain ⟨hnone, hcase⟩ := h.pending (by simp [hop]) (by simp [hop])
  cases h
  rcases hcase with ⟨-, hcached⟩ | ⟨howner | ⟨t', howner | howner⟩, -⟩
  · simp [hstate] at hcached
  all_goals constructor <;> simp_all [InHash, Fits, Claimed, Over, Fresh]

theorem unlinked (howner : v.entry.owner = .thread t .unlinking) : Settled { v with
      entry := { v.entry with owner := .thread t .discarding }, bucket := fun _ => False,
      linked := false } := by
  cases h
  constructor <;> simp_all [InHash, Ranged, Fits, Over, Fresh]

theorem freeing (howner : v.entry.owner = .thread t .freeing) (hd : d.state = .rfreeList) :
    Settled { v with
      entry := { v.entry with owner := .free }, desc := d, free := True, freed := true } := by
  cases h
  constructor <;> simp_all [InHash, Ranged, Fits]

theorem doomed (howner : v.entry.owner = .linked)
    (hstate : v.desc.state = .cachedNotValid) (hrange : d.range = v.desc.range)
    (hd : d.state = .mustFree) :
    Settled { v with
      desc := d } := by
  cases h
  constructor <;> simp_all [InHash, Ranged, Fits, Cached, Over]

theorem removed (howner : v.entry.owner = .linked) (hstate : v.desc.state = .cachedValid) :
    Settled { v with
      entry := { v.entry with owner := .thread t .discarding }, bucket := fun _ => False,
      linked := false, desc := { v.desc with state := .limbo } } := by
  cases h
  constructor <;> simp_all [InHash, Ranged, Fits, Cached, Over]

theorem shrunk (howner : v.entry.owner = .thread t .taking)
    (hstate : v.desc.state = .claimedValid) (hd : d.state = .cachedValid) (hr : d.range.InRegion) :
    Settled { v with
      entry := { v.entry with owner := .thread t (.linking false) }, desc := d } := by
  cases h
  constructor <;> simp_all [InHash, Ranged, Fits, Claimed, Over]

theorem emptied (howner : v.entry.owner = .thread t .taking)
    (hstate : v.desc.state = .claimedValid ∨ v.desc.state = .mustFree) :
    Settled { v with
      entry := { v.entry with owner := .thread t .freeing }, desc := d } := by
  cases h
  rcases hstate with hstate | hstate
  all_goals constructor <;> simp_all [InHash, Ranged, Fits, Claimed, Over]

end

end BufView.Settled

end MachUS.Ufs
