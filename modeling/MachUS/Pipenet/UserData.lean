import MachUS.Foundation.MemoryReads
import MachUS.Pipenet.Connector

namespace MachUS.Pipenet.UserData
open Memory

structure Store where
  memory : Mem
  writes : List (Region × ℕ)

def Store.bcopy (s : Store) (src : ℤ) (dst : Region) (n : ℕ) : Store where
  memory := store s.memory dst.start (bytes s.memory src n)
  writes := (dst, n) :: s.writes

-- What user data needs of a pipenet_conninfo. An int compared with an unsigned int is taken for one.
structure Request where
  state : ConninfoState
  inUdata : ℤ
  inUdatalen : UInt32
  outUdata : ℤ
  outUdatalen : UInt32
  seqno : UInt32
  error : Code
  deriving DecidableEq

structure Listened where
  code : Code
  udatalen : UInt32
  queue : List Request
  store : Store

def netListen (r : Request) (rest : List Request) (udata : ℤ) (udatalen : UInt32) (s : Store) :
    Listened :=
  if r.inUdatalen < udatalen then ⟨.invalidBufferSize, r.inUdatalen, r :: rest, s⟩
  else
    ⟨.success, r.inUdatalen, r :: rest,
      s.bcopy r.inUdata ⟨udata, udatalen.toNat⟩ r.inUdatalen.toNat⟩

structure Answered where
  code : Code
  queue : List Request
  store : Store
  taken : Option Request

def claim (queue : List Request) (seqno udatalen : UInt32) (s : Store)
    (commit : Request → Code × Store × Request) : Answered :=
  match queue with
  | [] => ⟨.objectNotFound, [], s, none⟩
  | r :: rest =>
    if r.seqno ≠ seqno then ⟨.objectNotFound, r :: rest, s, none⟩
    else if r.outUdatalen < udatalen then ⟨.invalidBufferSize, r :: rest, s, none⟩
    else
      let (code, s, r) := commit r
      ⟨code, rest, s, some r⟩

structure Outside where
  setUp : Code
  credentials : Code
  agent : Code

def netAccept (queue : List Request) (seqno : UInt32) (udata : ℤ) (udatalen : UInt32) (o : Outside)
    (s : Store) : Answered :=
  claim queue seqno udatalen s fun r =>
    let s := s.bcopy udata ⟨r.outUdata, r.outUdatalen.toNat⟩ udatalen.toNat
    let r := { r with outUdatalen := udatalen, state := .accepting }
    if o.setUp ≠ .success then
      (o.setUp, s, { r with state := .rejected, error := o.setUp, outUdatalen := 0 })
    else if o.credentials ≠ .success then (.internalError, s, r)
    else if o.agent ≠ .success then
      (o.agent, s, { r with state := .rejected, error := o.agent, outUdatalen := 0 })
    else (.success, s, { r with error := .success, state := .accepted })

def netReject (queue : List Request) (seqno : UInt32) (udata : ℤ) (udatalen : UInt32) (s : Store) :
    Answered :=
  claim queue seqno udatalen s fun r =>
    (.success, s.bcopy udata ⟨r.outUdata, r.outUdatalen.toNat⟩ udatalen.toNat,
      { r with outUdatalen := udatalen, error := .connectionRefused, state := .rejected })

def netConnectReturns (r : Request) (o : Outside) : Code × UInt32 :=
  if r.error ≠ .success then
    (r.error, if r.error = .connectionRefused then r.outUdatalen else 0)
  else if o.credentials ≠ .success then (.internalError, r.outUdatalen)
  else (o.agent, r.outUdatalen)

inductive Costate where
  | connected
  | disconnected
  deriving DecidableEq

structure Endpoint where
  costate : Costate
  disconnData : ℤ
  disconnDatalen : UInt32
  deriving DecidableEq

def netIsConnected : Code := .other 3

def netNotConnected : Code := .other 4

def pipenetSnddisUpcall (e : Endpoint) (udata : ℤ) (udatalen : UInt32) (block : ℤ) (stray : ℕ)
    (s : Store) : Code × Endpoint × Store :=
  if e.costate ≠ .connected then (netNotConnected, e, s)
  else if 0 < udatalen then
    (.success, ⟨.disconnected, block, udatalen⟩, s.bcopy udata ⟨block, udatalen.toNat⟩ stray)
  else (.success, { e with costate := .disconnected }, s)

def netSnddis (e peer : Endpoint) (udata : ℤ) (udatalen : UInt32) (block : ℤ) (stray : ℕ)
    (s : Store) : Code × Endpoint × Endpoint × Store :=
  if e.costate ≠ .connected then (netNotConnected, e, peer, s)
  else
    let (code, peer, s) := pipenetSnddisUpcall peer udata udatalen block stray s
    (code, if code = .success then { e with costate := .disconnected } else e, peer, s)

def netRcvdis (e : Endpoint) (udata : ℤ) (udatalen : UInt32) (s : Store) : Code × UInt32 × Store :=
  if e.costate ≠ .disconnected then (netIsConnected, 0, s)
  else if udatalen < e.disconnDatalen then (.invalidBufferSize, e.disconnDatalen, s)
  else
    (.success, e.disconnDatalen,
      s.bcopy e.disconnData ⟨udata, udatalen.toNat⟩ e.disconnDatalen.toNat)

inductive Transfer where
  | listen (r : Request) (rest : List Request) (udata : ℤ) (udatalen : UInt32)
  | accept (r : Request) (rest : List Request) (udata : ℤ) (udatalen : UInt32)
  | reject (r : Request) (rest : List Request) (udata : ℤ) (udatalen : UInt32)
  | disconnect (udata : ℤ) (udatalen : UInt32) (block : ℤ) (stray : ℕ) (buffer : ℤ)
      (room : UInt32)

structure Delivery where
  code : Code
  length : UInt32
  told : UInt32
  pending : Prop
  store : Store

def fine : Outside := ⟨.success, .success, .success⟩

def answered (r : Request) (rest : List Request) (udatalen : UInt32) (a : Answered) : Delivery where
  code := a.code
  length := udatalen
  told := (a.taken.map fun r => (netConnectReturns r fine).2).getD 0
  pending := a.queue = r :: rest
  store := a.store

namespace Transfer

variable (m : Mem)

def delivery : Transfer → Delivery
  | listen r rest udata udatalen =>
    let a := netListen r rest udata udatalen ⟨m, []⟩
    ⟨a.code, a.udatalen, a.udatalen, a.queue = r :: rest, a.store⟩
  | accept r rest udata udatalen =>
    answered r rest udatalen (netAccept (r :: rest) r.seqno udata udatalen fine ⟨m, []⟩)
  | reject r rest udata udatalen =>
    answered r rest udatalen (netReject (r :: rest) r.seqno udata udatalen ⟨m, []⟩)
  | disconnect udata udatalen block stray buffer room =>
    let sent := netSnddis ⟨.connected, 0, 0⟩ ⟨.connected, 0, 0⟩ udata udatalen block stray ⟨m, []⟩
    let got := netRcvdis sent.2.2.1 buffer room sent.2.2.2
    ⟨got.1, got.2.1, got.2.1, sent.2.2.1.costate = .disconnected, got.2.2⟩

def source : Transfer → ℤ × UInt32
  | listen r _ _ _ => (r.inUdata, r.inUdatalen)
  | accept _ _ udata udatalen => (udata, udatalen)
  | reject _ _ udata udatalen => (udata, udatalen)
  | disconnect udata udatalen _ _ _ _ => (udata, udatalen)

def buffer : Transfer → ℤ × UInt32
  | listen _ _ udata udatalen => (udata, udatalen)
  | accept r _ _ _ => (r.outUdata, r.outUdatalen)
  | reject r _ _ _ => (r.outUdata, r.outUdatalen)
  | disconnect _ _ _ _ buffer room => (buffer, room)

structure Sound (t : Transfer) : Prop where
  bounded : ∀ w ∈ (t.delivery m).store.writes, w.2 ≤ w.1.length
  succeeds : (t.delivery m).code = .success ↔ t.source.2 ≤ t.buffer.2
  delivers : (t.delivery m).code = .success → (t.delivery m).told = t.source.2 ∧
    bytes (t.delivery m).store.memory t.buffer.1 t.source.2.toNat =
      bytes m t.source.1 t.source.2.toNat
  refuses : ¬ t.source.2 ≤ t.buffer.2 → (t.delivery m).code = .invalidBufferSize ∧
    (t.delivery m).pending ∧ (t.delivery m).length = t.source.2

-- When that is so: at net_listen, if the data just fill the buffer, and at net_rcvdis, if there are
-- none or the stray length is not too long and what it leaves out happens to stand there already.
def Meets : Transfer → Prop
  | listen r _ _ udatalen => r.inUdatalen = udatalen
  | accept _ _ _ _ => True
  | reject _ _ _ _ => True
  | disconnect udata udatalen block stray _ room =>
    udatalen = 0 ∨ stray ≤ udatalen.toNat ∧ (udatalen ≤ room →
      ∀ i : ℕ, stray ≤ i → i < udatalen.toNat → m (block + i) = m (udata + i))

end Transfer

section Copies

variable {m : Mem} {s : Store} {src : ℤ} {dst : Region} {n : ℕ}

theorem bytes_bcopy (s : Store) (src : ℤ) (dst : Region) (n : ℕ) :
    bytes (s.bcopy src dst n).memory dst.start n = bytes s.memory src n := by
  have hself := bytes_store_self s.memory dst.start (bytes s.memory src n)
  rw [bytes_length] at hself
  exact hself

theorem bcopy_inside (s : Store) (src : ℤ) (dst : Region) {n i : ℕ} (hi : i < n) :
    (s.bcopy src dst n).memory (dst.start + i) = s.memory (src + i) :=
  bytes_eq_iff.1 (bytes_bcopy s src dst n) i hi

theorem bcopy_beyond (s : Store) (src : ℤ) (dst : Region) {n i : ℕ} (hi : n ≤ i) :
    (s.bcopy src dst n).memory (dst.start + i) = s.memory (dst.start + i) :=
  store_of_outside (.inr (by rw [bytes_length]; omega))

end Copies

namespace Transfer

variable {m : Mem}

theorem listen_sound_iff (r : Request) (rest : List Request) (udata : ℤ) (udatalen : UInt32) :
    (listen r rest udata udatalen).Sound m ↔ r.inUdatalen = udatalen := by
  constructor
  · intro h
    have hsucceeds := h.succeeds
    have hbounded := h.bounded
    simp only [delivery, netListen, source, buffer] at hsucceeds hbounded
    by_cases hlt : r.inUdatalen < udatalen
    · rw [if_pos hlt] at hsucceeds
      exact absurd (hsucceeds.2 (UInt32.le_of_lt hlt)) Code.noConfusion
    · rw [if_neg hlt] at hbounded
      have hle := hbounded _ (List.mem_singleton_self _)
      exact UInt32.le_antisymm (UInt32.le_iff_toNat_le.2 hle) (UInt32.not_lt.1 hlt)
  · rintro rfl
    refine ⟨?_, ?_, ?_, fun hnot => absurd (UInt32.le_refl _) hnot⟩
    · simp [delivery, netListen, Store.bcopy]
    · simp [delivery, netListen, source, buffer]
    · intro _
      refine ⟨by simp [delivery, netListen, source], ?_⟩
      simp only [delivery, netListen, source, buffer, UInt32.lt_irrefl, if_false]
      exact bytes_bcopy ⟨m, []⟩ r.inUdata ⟨udata, r.inUdatalen.toNat⟩ _

theorem claimed_sound {t : Transfer} (r : Request) (rest : List Request) {udata : ℤ}
    {udatalen : UInt32} {commit : Request → Code × Store × Request}
    (hdelivery : t.delivery m =
      answered r rest udatalen (claim (r :: rest) r.seqno udatalen ⟨m, []⟩ commit))
    (hsource : t.source = (udata, udatalen)) (hbuffer : t.buffer = (r.outUdata, r.outUdatalen))
    (hcode : (commit r).1 = .success)
    (hstore : (commit r).2.1 =
      Store.bcopy ⟨m, []⟩ udata ⟨r.outUdata, r.outUdatalen.toNat⟩ udatalen.toNat)
    (htold : (netConnectReturns (commit r).2.2 fine).2 = udatalen) : t.Sound m := by
  by_cases hlt : r.outUdatalen < udatalen
  · have hclaim : claim (r :: rest) r.seqno udatalen ⟨m, []⟩ commit =
        ⟨.invalidBufferSize, r :: rest, ⟨m, []⟩, none⟩ := by
      simp [claim, hlt]
    have hnot : ¬ udatalen ≤ r.outUdatalen := UInt32.not_le.2 hlt
    rw [hclaim] at hdelivery
    refine ⟨?_, ?_, ?_, fun _ => ?_⟩
    · simp [hdelivery, answered]
    · simp [hdelivery, answered, hsource, hbuffer, hnot]
    · simp [hdelivery, answered]
    · simp [hdelivery, answered, hsource]
  · have hclaim : claim (r :: rest) r.seqno udatalen ⟨m, []⟩ commit =
        ⟨(commit r).1, rest, (commit r).2.1, some (commit r).2.2⟩ := by
      simp [claim, hlt]
    have hle : udatalen ≤ r.outUdatalen := UInt32.not_lt.1 hlt
    rw [hclaim] at hdelivery
    refine ⟨?_, ?_, fun _ => ⟨?_, ?_⟩, fun hnot => ?_⟩
    · simpa [hdelivery, answered, hstore, Store.bcopy] using UInt32.le_iff_toNat_le.1 hle
    · simp [hdelivery, answered, hsource, hbuffer, hcode, hle]
    · simp [hdelivery, answered, hsource, htold]
    · simp only [hdelivery, answered, hsource, hbuffer, hstore]
      exact bytes_bcopy ⟨m, []⟩ udata ⟨r.outUdata, r.outUdatalen.toNat⟩ _
    · rw [hsource, hbuffer] at hnot
      exact absurd hle hnot

theorem accept_sound (r : Request) (rest : List Request) (udata : ℤ) (udatalen : UInt32) :
    (accept r rest udata udatalen).Sound m :=
  claimed_sound r rest rfl rfl rfl rfl rfl rfl

theorem reject_sound (r : Request) (rest : List Request) (udata : ℤ) (udatalen : UInt32) :
    (reject r rest udata udatalen).Sound m :=
  claimed_sound r rest rfl rfl rfl rfl rfl rfl

section Disconnect

variable {udata block buffer : ℤ} {udatalen room : UInt32} {stray : ℕ}

def noticed (m : Mem) (udata : ℤ) (udatalen : UInt32) (block : ℤ) (stray : ℕ) : Store :=
  if 0 < udatalen then Store.bcopy ⟨m, []⟩ udata ⟨block, udatalen.toNat⟩ stray else ⟨m, []⟩

theorem delivery_disconnect_refused (udata block buffer : ℤ) (stray : ℕ) (hnot : room < udatalen) :
    (disconnect udata udatalen block stray buffer room).delivery m =
      ⟨.invalidBufferSize, udatalen, udatalen, True, noticed m udata udatalen block stray⟩ := by
  have hpos : 0 < udatalen := by
    rw [UInt32.lt_iff_toNat_lt] at hnot ⊢
    exact Nat.lt_of_le_of_lt (Nat.zero_le _) hnot
  simp [delivery, netSnddis, pipenetSnddisUpcall, netRcvdis, noticed, hpos, hnot]

theorem delivery_disconnect_taken (udata block buffer : ℤ) (stray : ℕ)
    (hle : ¬ room < udatalen) (hpos : 0 < udatalen) :
    (disconnect udata udatalen block stray buffer room).delivery m =
      ⟨.success, udatalen, udatalen, True,
        (noticed m udata udatalen block stray).bcopy block ⟨buffer, room.toNat⟩
          udatalen.toNat⟩ := by
  simp [delivery, netSnddis, pipenetSnddisUpcall, netRcvdis, noticed, hpos, hle]

theorem disconnect_empty_sound : (disconnect udata 0 block stray buffer room).Sound m := by
  have hroom : ¬ room < 0 := UInt32.not_lt.2 (UInt32.zero_le)
  have hdelivery : (disconnect udata 0 block stray buffer room).delivery m =
      ⟨.success, 0, 0, True, Store.bcopy ⟨m, []⟩ 0 ⟨buffer, room.toNat⟩ 0⟩ := by
    simp [delivery, netSnddis, pipenetSnddisUpcall, netRcvdis, hroom]
  have hle : (0 : UInt32) ≤ room := UInt32.zero_le
  refine ⟨?_, ?_, ?_, fun h => absurd hle h⟩
  · simp [hdelivery, Store.bcopy]
  · simp [hdelivery, source, Transfer.buffer, hle]
  · intro _
    exact ⟨by simp [hdelivery, source], rfl⟩

theorem disconnect_sound_iff (hpos : 0 < udatalen) :
    (disconnect udata udatalen block stray buffer room).Sound m ↔ stray ≤ udatalen.toNat ∧
      (udatalen ≤ room →
        ∀ i : ℕ, stray ≤ i → i < udatalen.toNat → m (block + i) = m (udata + i)) := by
  have hnoticed : noticed m udata udatalen block stray =
    Store.bcopy ⟨m, []⟩ udata ⟨block, udatalen.toNat⟩ stray := if_pos hpos
  by_cases hlt : room < udatalen
  · have hnot : ¬ udatalen ≤ room := UInt32.not_le.2 hlt
    have hdelivery := delivery_disconnect_refused (m := m) udata block buffer stray hlt
    rw [hnoticed] at hdelivery
    constructor
    · intro h
      refine ⟨?_, fun hle => absurd hle hnot⟩
      have hbounded := h.bounded
      rw [hdelivery] at hbounded
      exact hbounded _ (List.mem_singleton_self _)
    · intro h
      refine ⟨?_, ?_, ?_, fun _ => ?_⟩
      · simpa [hdelivery, Store.bcopy] using h.1
      · simp [hdelivery, source, Transfer.buffer, hnot]
      · simp [hdelivery]
      · simp [hdelivery, source]
  · have hle : udatalen ≤ room := UInt32.not_lt.1 hlt
    have hdelivery := delivery_disconnect_taken (m := m) udata block buffer stray hlt hpos
    rw [hnoticed] at hdelivery
    have hbytes : bytes ((disconnect udata udatalen block stray buffer room).delivery m).store.memory
          buffer udatalen.toNat = bytes m udata udatalen.toNat ↔
        ∀ i : ℕ, stray ≤ i → i < udatalen.toNat → m (block + i) = m (udata + i) := by
      rw [hdelivery]
      have hcopied := bytes_bcopy (Store.bcopy ⟨m, []⟩ udata ⟨block, udatalen.toNat⟩ stray) block
        ⟨buffer, room.toNat⟩ udatalen.toNat
      rw [show bytes _ buffer _ = _ from hcopied, bytes_eq_iff]
      constructor
      · intro h i hstray hi
        rw [← h i hi]
        exact (bcopy_beyond ⟨m, []⟩ udata ⟨block, udatalen.toNat⟩ hstray).symm
      · intro h i hi
        rcases Nat.lt_or_ge i stray with hin | hout
        · exact bcopy_inside ⟨m, []⟩ udata ⟨block, udatalen.toNat⟩ hin
        · rw [← h i hout hi]
          exact bcopy_beyond ⟨m, []⟩ udata ⟨block, udatalen.toNat⟩ hout
    constructor
    · intro h
      have hcode : ((disconnect udata udatalen block stray buffer room).delivery m).code = .success := by
        rw [hdelivery]
      refine ⟨?_, fun _ => hbytes.1 (h.delivers hcode).2⟩
      have hbounded := h.bounded
      rw [hdelivery] at hbounded
      exact hbounded _ (.tail _ (List.mem_singleton_self _))
    · intro h
      refine ⟨?_, ?_, fun _ => ⟨?_, hbytes.2 (h.2 hle)⟩, fun hnot => absurd hle hnot⟩
      · have hroom := UInt32.le_iff_toNat_le.1 hle
        simpa [hdelivery, Store.bcopy] using ⟨hroom, h.1⟩
      · simp [hdelivery, source, Transfer.buffer, hle]
      · simp [hdelivery, source]

end Disconnect

theorem user_data_sound_iff (t : Transfer) (m : Mem) : t.Sound m ↔ t.Meets m := by
  cases t with
  | listen r rest udata udatalen => exact listen_sound_iff r rest udata udatalen
  | accept r rest udata udatalen => exact iff_of_true (accept_sound r rest udata udatalen) trivial
  | reject r rest udata udatalen => exact iff_of_true (reject_sound r rest udata udatalen) trivial
  | disconnect udata udatalen block stray buffer room =>
    by_cases hzero : udatalen = 0
    · rw [hzero]
      exact iff_of_true disconnect_empty_sound (.inl rfl)
    · have hpos : 0 < udatalen := by
        rw [UInt32.lt_iff_toNat_lt]
        exact Nat.pos_of_ne_zero fun h => hzero (UInt32.toNat_inj.1 h)
      rw [disconnect_sound_iff hpos, Meets]
      exact (or_iff_right hzero).symm

def greeted : Request := ⟨.listening, 100, 3, 200, 0, 1, .objectNotStarted⟩

theorem roomy_listen_refused : ¬ (listen greeted [] 300 8).Sound fun _ => 0 := by
  rw [listen_sound_iff]
  decide

end Transfer

end MachUS.Pipenet.UserData
