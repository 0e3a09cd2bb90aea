/-
# The transmit ring of the e100 driver

`e100_tx_pkt` puts a packet into the block after the last one it used, hands
the block over by its command word, reclaims the blocks the device has
completed and restarts the command unit (`restart_cu`). The device works
beside it: it accepts a command from the SCB, executes one block, sets its
status and suspends at the S bit. A run is any interleaving of calls, of the
driver's steps (each store to a block, each block of the reclaim loop, each
access to the SCB) and of the device's steps.

The kernel does not preempt itself, so calls do not overlap; the receive unit's
commands in the same SCB word only make the driver poll longer and are left
out. Packets are what leaves on the wire: the first `tcb_bcount` bytes of a
block the device executes.

* `sent_in_order`: what was sent is always a beginning of what was accepted,
  and a block the device has not completed is not touched.
* `accepted_after_slack`: the ring refuses a packet only when it is full, as
  long as no call is made with twelve packets outstanding; `stuck_full` is the
  ring that refuses forever although the device has completed its oldest packet.
* `none_forgotten`: nothing waits at a resting command unit, as long as no call
  is made while the unit works; `forgotten` is the packet that waits.
-/
import Jos.Base.Bytes
import Jos.Base.Ring
import Jos.Base.Steps

namespace Jos
namespace Net

open Function

abbrev E_INVAL : ℤ := 3
abbrev E_NO_BUFS : ℤ := 16
abbrev E_NO_DATA : ℤ := 17

/-- `ETH_HDRSZ + ETHERMTU`. -/
abbrev ETH_PKTSZ_MAX : ℕ := 18 + 1500

/-- `sizeof(struct E100_crb)`: status, command, link, and eight bytes before the data. -/
abbrev sizeofCrb : ℕ := 8 + 8 + ETH_PKTSZ_MAX

/-- The first `n` bytes of a buffer. -/
def bytes (d : Block) (n : ℕ) : List UInt8 := (List.range n).map d

theorem bytes_congr {d d' : Block} {n : ℕ} (h : ∀ i < n, d i = d' i) : bytes d n = bytes d' n :=
  List.map_congr_left fun i hi => h i (List.mem_range.mp hi)

/-- A buffer copied to the front of another is its first bytes. -/
theorem bytes_write (d : Block) (n : ℕ) (buf : Block) : bytes (d.write 0 n buf) n = bytes buf n :=
  bytes_congr fun i hi => Block.write_in (Nat.zero_le i) (by omega)

namespace Tx

/-- `E100_CBL_SIZE`. -/
abbrev E100_CBL_SIZE : ℕ := 5 * 4096 / sizeofCrb

abbrev TCB_SW_NULL : UInt16 := 0x0
abbrev TCB_SW_OK : UInt16 := 0x2000
abbrev TCB_SW_C : UInt16 := 0x8000
abbrev TCB_CW_NULL : UInt16 := 0x0
abbrev TCB_CW_CMD : UInt16 := 0x4
abbrev TCB_CW_S : UInt16 := 0x4000
abbrev TCB_CW_EL : UInt16 := 0x8000

/-- A control block of the ring; `link` is the block that `link` points to. -/
structure Tcb where
  status : UInt16
  cmd : UInt16
  link : ℕ
  bcount : UInt16
  data : Block

/-- The packet in a block. -/
def Tcb.packet (b : Tcb) : List UInt8 := bytes b.data b.bcount.toNat

/-- The device has completed the block. -/
def Tcb.Complete (b : Tcb) : Prop := b.status &&& (TCB_SW_C ||| TCB_SW_OK) = TCB_SW_C ||| TCB_SW_OK

instance (b : Tcb) : Decidable b.Complete := inferInstanceAs (Decidable (_ = _))

/-- The block has been handed to the device, which has not completed it. -/
def Tcb.Pending (b : Tcb) : Prop := b.cmd ≠ TCB_CW_NULL ∧ ¬ b.Complete

instance (b : Tcb) : Decidable b.Pending := inferInstanceAs (Decidable (_ ∧ _))

/-- States of the command unit. -/
inductive Cu
  | idle
  | suspended
  | active
  deriving DecidableEq

/-- Commands to it. -/
inductive Cuc
  | start
  | resume
  deriving DecidableEq

/-- Where the driver is in a call. -/
inductive Pc
  | ready
  | copy (i : ℕ) (buf : Block) (len : ℕ)
  | count (i : ℕ) (buf : Block) (len : ℕ)
  | command (i : ℕ) (buf : Block) (len : ℕ)
  | reclaim (i len : ℕ)
  | poll (len : ℕ)
  | status (len : ℕ)
  | pointer (len : ℕ)
  | start (len : ℕ)
  | resume (len : ℕ)
  | panic

instance (p : Pc) : Decidable (p = .ready) :=
  match p with
  | .ready => .isTrue rfl
  | .copy .. | .count .. | .command .. | .reclaim .. | .poll _ | .status _ | .pointer _ | .start _ | .resume _
  | .panic => .isFalse nofun

/-- Driver, ring and device, with the packets accepted and the packets sent so far. -/
structure Sys where
  cbl : ℕ → Tcb
  lastTxId : ℕ
  pc : Pc
  ret : ℤ
  cu : Cu
  scb : Option Cuc
  gp : ℕ
  pos : ℕ
  accepted : List (List UInt8)
  sent : List (List UInt8)

/-- `init_dma_rings` and the rest of the attach function. -/
def init : Sys where
  cbl i := ⟨TCB_SW_NULL, TCB_CW_NULL, if i = E100_CBL_SIZE - 1 then 0 else i + 1, 0, fun _ => 0⟩
  lastTxId := E100_CBL_SIZE - 1
  pc := .ready
  ret := 0
  cu := .idle
  scb := none
  gp := 0
  pos := 0
  accepted := []
  sent := []

/-- A block changed. -/
def Sys.setBlock (s : Sys) (i : ℕ) (b : Tcb) : Sys := { s with cbl := update s.cbl i b }

/-! ### The driver -/

/-- The block after `last_tx_id`. -/
def nextTx (last : ℕ) : ℕ := if last = E100_CBL_SIZE - 1 then 0 else last + 1

/-- `e100_tx_pkt` up to its first store. -/
def e100TxPkt (buf : Block) (len : ℕ) (s : Sys) : Sys :=
  let i := nextTx s.lastTxId
  if (s.cbl i).cmd = TCB_CW_NULL then
    if (s.cbl i).status = TCB_SW_NULL then { s with pc := .copy i buf len } else { s with pc := .panic }
  else { s with ret := -E_NO_BUFS }

/-- `sys_net_tx_pkt`, the only caller. -/
def sysNetTxPkt (buf : Block) (len : ℕ) (s : Sys) : Sys :=
  if len > ETH_PKTSZ_MAX then { s with ret := -E_INVAL } else e100TxPkt buf len s

/-- The call returns. -/
def Sys.finish (s : Sys) (len : ℕ) : Sys := { s with pc := .ready, ret := len }

/-- One iteration of the reclaim loop. -/
def reclaim (i : ℕ) (s : Sys) : Sys :=
  if (s.cbl i).Complete then s.setBlock i { s.cbl i with cmd := TCB_CW_NULL, status := TCB_SW_NULL } else s

/-- The driver's next step: the rest of `e100_tx_pkt`, with `restart_cu` from `poll` on. -/
def cpu (s : Sys) : Sys :=
  match s.pc with
  | .copy i buf len =>
    { s.setBlock i { s.cbl i with data := (s.cbl i).data.write 0 len buf } with pc := .count i buf len }
  | .count i buf len =>
    { s.setBlock i { s.cbl i with bcount := UInt16.ofNat len } with pc := .command i buf len }
  | .command i buf len =>
    { s.setBlock i { s.cbl i with cmd := TCB_CW_S ||| TCB_CW_CMD } with
      lastTxId := i, pc := .reclaim 0 len, accepted := s.accepted ++ [bytes buf len] }
  | .reclaim i len =>
    if i < E100_CBL_SIZE then { reclaim i s with pc := .reclaim (i + 1) len } else { s with pc := .poll len }
  | .poll len => if s.scb.isSome then s else { s with pc := .status len }
  | .status len =>
    match s.cu with
    | .idle => { s with pc := .pointer len }
    | .suspended => { s with pc := .resume len }
    | .active => s.finish len
  | .pointer len => { s with gp := 0, pc := .start len }
  | .start len => { s with scb := some .start }.finish len
  | .resume len => { s with scb := some .resume }.finish len
  | .ready | .panic => s

/-! ### The device -/

/-- The device takes the command from the SCB. -/
def accept (s : Sys) : Sys :=
  match s.scb with
  | none => s
  | some .start => { s with scb := none, cu := .active, pos := s.gp }
  | some .resume => { s with scb := none, cu := .active }

/-- The device completes the block it is at, and goes on as its command word says. -/
def complete (s : Sys) : Sys :=
  let b := s.cbl s.pos
  if s.cu = .active then
    { s.setBlock s.pos { b with status := b.status ||| (TCB_SW_C ||| TCB_SW_OK) } with
      sent := if b.cmd &&& 0x7 = TCB_CW_CMD then s.sent ++ [b.packet] else s.sent
      pos := b.link
      cu := if b.cmd &&& TCB_CW_S ≠ 0 then .suspended
        else if b.cmd &&& TCB_CW_EL ≠ 0 then .idle else .active }
  else s

/-- What can happen: a call, or a step of driver or device. -/
inductive Ev
  | call (buf : Block) (len : ℕ)
  | cpu
  | accept
  | complete

/-- A call, when none is in progress. -/
def call (buf : Block) (len : ℕ) (s : Sys) : Sys :=
  match s.pc with
  | .ready => sysNetTxPkt buf len s
  | _ => s

def step : Ev → Sys → Sys
  | .call buf len, s => call buf len s
  | .cpu, s => cpu s
  | .accept, s => accept s
  | .complete, s => complete s

/-! ### The invariant

`sent.length` packets have left, and `accepted.length` have been put into the
ring: those between are the ones waiting, in consecutive blocks. The unit works
off one packet for each command, and a command is given only after a packet, so
packets sent, a block in work, a command in the SCB and a command the driver is
about to give (`owed`) are together at most the packets accepted: the device
never gets ahead to a block without a packet.
-/

/-- One if the unit is working, one if a command waits for it. -/
def Sys.busy (s : Sys) : ℕ := (if s.cu = .active then 1 else 0) + if s.scb.isSome then 1 else 0

/-- One if the packet has been handed over and the command to the unit not yet given. -/
def Pc.owed : Pc → ℕ
  | .reclaim .. | .poll _ | .status _ | .pointer _ | .start _ | .resume _ => 1
  | _ => 0

/-- A packet is waiting in the block. -/
def Tcb.Waiting (b : Tcb) : Prop := b.cmd = TCB_CW_S ||| TCB_CW_CMD ∧ b.status = TCB_SW_NULL

/-- The block is the driver's to use. -/
def Tcb.Free (b : Tcb) : Prop := b.cmd = TCB_CW_NULL ∧ b.status = TCB_SW_NULL

/-- The packet in the block has left. -/
def Tcb.Done (b : Tcb) : Prop := b.cmd = TCB_CW_S ||| TCB_CW_CMD ∧ b.status = TCB_SW_C ||| TCB_SW_OK

/-- Packet `k` is waiting. -/
def Sys.Waits (s : Sys) (k : ℕ) : Prop := s.sent.length ≤ k ∧ k < s.accepted.length

/-- The ring between driver and device. -/
structure Sound (s : Sys) : Prop where
  ring : Ring.Holds E100_CBL_SIZE (fun i => (s.cbl i).packet) s.accepted s.sent.length
  order : s.sent = s.accepted.take s.sent.length
  waiting : ∀ k, s.Waits k → (s.cbl (k % E100_CBL_SIZE)).Waiting
  others : ∀ i < E100_CBL_SIZE, (∀ k, s.Waits k → k % E100_CBL_SIZE ≠ i) → (s.cbl i).Free ∨ (s.cbl i).Done
  link : ∀ k, (s.cbl (k % E100_CBL_SIZE)).link = (k + 1) % E100_CBL_SIZE
  next : nextTx s.lastTxId = s.accepted.length % E100_CBL_SIZE
  idle : s.cu = .idle → s.sent = []
  pos : s.cu ≠ .idle → s.pos = s.sent.length % E100_CBL_SIZE
  starting : s.scb = some .start → s.cu = .idle ∧ s.gp = 0
  resuming : s.scb = some .resume → s.cu = .suspended

/-- What the driver has found out and stored so far in the call. -/
def At (s : Sys) : Prop :=
  match s.pc with
  | .ready | .reclaim .. | .poll _ => True
  | .copy i _ len => i = s.accepted.length % E100_CBL_SIZE ∧ (s.cbl i).Free ∧ len ≤ ETH_PKTSZ_MAX
  | .count i buf len => i = s.accepted.length % E100_CBL_SIZE ∧ (s.cbl i).Free ∧ len ≤ ETH_PKTSZ_MAX ∧
      bytes (s.cbl i).data len = bytes buf len
  | .command i buf len => i = s.accepted.length % E100_CBL_SIZE ∧ (s.cbl i).Free ∧
      (s.cbl i).packet = bytes buf len
  | .status _ => s.scb = none
  | .pointer _ => s.scb = none ∧ s.cu = .idle
  | .start _ => s.scb = none ∧ s.cu = .idle ∧ s.gp = 0
  | .resume _ => s.scb = none ∧ s.cu = .suspended
  | .panic => False

structure Inv (s : Sys) : Prop where
  sound : Sound s
  credit : s.sent.length + s.busy + s.pc.owed ≤ s.accepted.length
  here : At s

variable {s : Sys} {i : ℕ} {b : Tcb}

theorem Tcb.Done.complete (h : b.Done) : b.Complete := by
  rw [Tcb.Complete, h.2]
  decide

theorem Tcb.Free.not_complete (h : b.Free) : ¬ b.Complete := by
  rw [Tcb.Complete, h.2]
  decide

theorem Tcb.Waiting.pending (h : b.Waiting) : b.Pending := by
  rw [Tcb.Pending, Tcb.Complete, h.1, h.2]
  decide

theorem Tcb.Waiting.not_free (h : b.Waiting) : b.cmd ≠ TCB_CW_NULL := by
  rw [h.1]
  decide

namespace Sound

/-- A free block at the next position means that there is room. -/
theorem room (h : Sound s) (hf : (s.cbl (s.accepted.length % E100_CBL_SIZE)).cmd = TCB_CW_NULL) :
    s.accepted.length < s.sent.length + E100_CBL_SIZE := by
  by_contra hfull
  have hlen : s.accepted.length = s.sent.length + E100_CBL_SIZE := by
    have := h.ring.room
    omega
  have hw := h.waiting s.sent.length ⟨Nat.le_refl _, by rw [hlen]; exact Nat.lt_add_of_pos_right (by decide)⟩
  rw [hlen, Nat.add_mod_right] at hf
  exact hw.not_free hf

/-- A block that is pending has a waiting packet. -/
theorem waits_of_pending (h : Sound s) (hi : i < E100_CBL_SIZE) (hp : (s.cbl i).Pending) :
    ∃ k, s.Waits k ∧ k % E100_CBL_SIZE = i := by
  by_contra hno
  rcases h.others i hi fun k hk he => hno ⟨k, hk, he⟩ with hf | hd
  · exact hp.1 hf.1
  · exact hp.2 hd.complete

/-- A block in which no packet waits is changed, to one that is free or done. -/
theorem setBlock (h : Sound s) (hne : ∀ k, s.Waits k → k % E100_CBL_SIZE ≠ i) (hb : b.Free ∨ b.Done)
    (hl : b.link = (s.cbl i).link) : Sound (s.setBlock i b) := by
  refine { h with ring := ?_, waiting := ?_, others := ?_, link := ?_ }
  · refine h.ring.congr fun k hk hk' => ?_
    show ((update s.cbl i b) _).packet = _
    rw [update_of_ne (hne k ⟨hk, hk'⟩)]
  · intro k hk
    show ((update s.cbl i b) _).Waiting
    rw [update_of_ne (hne k hk)]
    exact h.waiting k hk
  · intro j hj hno
    show ((update s.cbl i b) j).Free ∨ ((update s.cbl i b) j).Done
    by_cases hji : j = i
    · rw [hji, update_self]
      exact hb
    · rw [update_of_ne hji]
      exact h.others j hj hno
  · intro k
    show ((update s.cbl i b) _).link = _
    by_cases hk : k % E100_CBL_SIZE = i
    · rw [hk, update_self, hl, ← hk]
      exact h.link k
    · rw [update_of_ne hk]
      exact h.link k

/-- Storing into the free block at the next position. -/
theorem store (h : Sound s) (hi : i = s.accepted.length % E100_CBL_SIZE) (hf : (s.cbl i).Free) (hb : b.Free)
    (hl : b.link = (s.cbl i).link) : Sound (s.setBlock i b) :=
  h.setBlock (fun _ hk => hi ▸ h.ring.slot_ne (h.room (hi ▸ hf.1)) hk.1 hk.2) (.inl hb) hl

/-- The driver keeps what it knows when only its own position and result change. -/
theorem at_pc (h : Sound s) (pc : Pc) (ret : ℤ) : Sound { s with pc := pc, ret := ret } :=
  { h with }

end Sound

/-! ### One step -/

/-- A filled block is handed to the device. -/
theorem Sound.handOver (h : Sound s) {p : List UInt8} (hi : i = s.accepted.length % E100_CBL_SIZE)
    (hf : (s.cbl i).Free) (hp : (s.cbl i).packet = p) (pc : Pc) :
    Sound { s.setBlock i { s.cbl i with cmd := TCB_CW_S ||| TCB_CW_CMD } with
      lastTxId := i, pc := pc, accepted := s.accepted ++ [p] } := by
  have hroom := h.room (hi ▸ hf.1)
  have hle := h.ring.le
  have hlen : (s.accepted ++ [p]).length = s.accepted.length + 1 := by simp
  set b' : Tcb := { s.cbl i with cmd := TCB_CW_S ||| TCB_CW_CMD } with hb'
  have hpkt : ∀ j, (update s.cbl i b' j).packet = (s.cbl j).packet := by
    intro j
    by_cases hj : j = i
    · subst hj
      rw [update_self]
      rfl
    · rw [update_of_ne hj]
  have hlink : ∀ j, (update s.cbl i b' j).link = (s.cbl j).link := by
    intro j
    by_cases hj : j = i
    · subst hj
      rw [update_self]
    · rw [update_of_ne hj]
  refine { h with ring := ?_, order := ?_, waiting := ?_, others := ?_, link := ?_, next := ?_ }
  · refine Ring.Holds.add (h.ring.congr fun k _ _ => hpkt _) hroom ?_
    show (update s.cbl i b' _).packet = p
    rw [hpkt, ← hi, hp]
  · show s.sent = (s.accepted ++ [p]).take s.sent.length
    rw [List.take_append_of_le_length hle]
    exact h.order
  · intro k hk
    obtain ⟨hk1, hk2⟩ : s.sent.length ≤ k ∧ k < (s.accepted ++ [p]).length := hk
    show (update s.cbl i b' _).Waiting
    rcases Nat.lt_or_ge k s.accepted.length with hlt | hge
    · rw [update_of_ne (hi ▸ h.ring.slot_ne hroom hk1 hlt)]
      exact h.waiting k ⟨hk1, hlt⟩
    · obtain rfl : k = s.accepted.length := by omega
      rw [← hi, update_self]
      exact ⟨rfl, hf.2⟩
  · intro j hj hno
    have hne : j ≠ i := fun he =>
      hno s.accepted.length ⟨hle, by show _ < (s.accepted ++ [p]).length; omega⟩ (he ▸ hi.symm)
    show (update s.cbl i b' j).Free ∨ (update s.cbl i b' j).Done
    rw [update_of_ne hne]
    exact h.others j hj fun k hk =>
      hno k ⟨hk.1, by have := hk.2; show _ < (s.accepted ++ [p]).length; omega⟩
  · intro k
    exact (hlink _).trans (h.link k)
  · show nextTx i = (s.accepted ++ [p]).length % E100_CBL_SIZE
    rw [hlen, Ring.succ_mod _ (by decide), ← hi]
    rfl

/-- An iteration of the reclaim loop frees a block whose packet has left, or does nothing. -/
theorem Sound.reclaim (h : Sound s) (i : ℕ) : Sound (Tx.reclaim i s) := by
  unfold Tx.reclaim
  split
  · next hc => exact h.setBlock (fun k hk he => (he ▸ (h.waiting k hk).pending).2 hc) (.inl ⟨rfl, rfl⟩) rfl
  · exact h

theorem reclaim_same (i : ℕ) (s : Sys) : (reclaim i s).sent = s.sent ∧ (reclaim i s).accepted = s.accepted ∧
    (reclaim i s).cu = s.cu ∧ (reclaim i s).scb = s.scb := by
  unfold reclaim
  split <;> exact ⟨rfl, rfl, rfl, rfl⟩

/-- The device completes a waiting block and suspends. -/
theorem complete_eq (h : Sound s) (ha : s.cu = .active) (hd : s.sent.length < s.accepted.length) :
    complete s =
      { s.setBlock (s.sent.length % E100_CBL_SIZE)
          { s.cbl (s.sent.length % E100_CBL_SIZE) with status := TCB_SW_C ||| TCB_SW_OK } with
        sent := s.sent ++ [(s.cbl (s.sent.length % E100_CBL_SIZE)).packet]
        pos := (s.sent.length + 1) % E100_CBL_SIZE
        cu := .suspended } := by
  have hpos := h.pos (by rw [ha]; decide)
  obtain ⟨hc, hs⟩ := h.waiting s.sent.length ⟨Nat.le_refl _, hd⟩
  simp only [complete, ha, if_true, hpos, hc, hs, h.link]
  rfl

theorem Sound.complete (h : Sound s) (ha : s.cu = .active) (hscb : s.scb = none)
    (hd : s.sent.length < s.accepted.length) : Sound (Tx.complete s) := by
  rw [complete_eq h ha hd]
  set p := (s.cbl (s.sent.length % E100_CBL_SIZE)).packet with hp
  set b' : Tcb := { s.cbl (s.sent.length % E100_CBL_SIZE) with status := TCB_SW_C ||| TCB_SW_OK } with hb'
  have hlen : (s.sent ++ [p]).length = s.sent.length + 1 := by simp
  have hne : ∀ k, s.sent.length + 1 ≤ k → k < s.accepted.length →
      k % E100_CBL_SIZE ≠ s.sent.length % E100_CBL_SIZE := by
    intro k hk hk' he
    have hroom := h.ring.room
    have := Ring.slot_inj (a := s.sent.length) (by omega) (by omega) (Nat.le_refl _) (by omega) he
    omega
  have hnew : ∀ {k}, Sys.Waits { s with sent := s.sent ++ [p] } k →
      s.sent.length + 1 ≤ k ∧ k < s.accepted.length := fun hk => ⟨hlen ▸ hk.1, hk.2⟩
  refine ⟨?_, ?_, ?_, ?_, ?_, h.next, fun hc => Cu.noConfusion hc, fun _ => ?_, ?_, fun _ => rfl⟩
  · show Ring.Holds _ (fun j => (update s.cbl _ b' j).packet) s.accepted (s.sent ++ [p]).length
    rw [hlen]
    refine (h.ring.drop hd).congr fun k hk hk' => ?_
    show (update s.cbl _ b' _).packet = _
    rw [update_of_ne (hne k hk hk')]
  · show s.sent ++ [p] = s.accepted.take (s.sent ++ [p]).length
    rw [hlen, h.ring.front hd, ← h.order]
  · intro k hk
    obtain ⟨hk1, hk2⟩ := hnew hk
    show (update s.cbl _ b' _).Waiting
    rw [update_of_ne (hne k hk1 hk2)]
    exact h.waiting k ⟨by omega, hk2⟩
  · intro j hj hno
    show (update s.cbl _ b' j).Free ∨ (update s.cbl _ b' j).Done
    by_cases hjd : j = s.sent.length % E100_CBL_SIZE
    · subst hjd
      rw [update_self]
      exact .inr ⟨(h.waiting _ ⟨Nat.le_refl _, hd⟩).1, rfl⟩
    · rw [update_of_ne hjd]
      refine h.others j hj fun k hk he => ?_
      rcases Nat.eq_or_lt_of_le hk.1 with heq | hlt
      · exact hjd (heq ▸ he.symm)
      · exact hno k ⟨by show (s.sent ++ [p]).length ≤ k; omega, hk.2⟩ he
  · intro k
    show (update s.cbl _ b' _).link = _
    by_cases hk : k % E100_CBL_SIZE = s.sent.length % E100_CBL_SIZE
    · rw [hk, update_self, ← h.link k, hk]
    · rw [update_of_ne hk]
      exact h.link k
  · show _ = (s.sent ++ [p]).length % _
    rw [hlen]
  · intro hs
    cases hscb.symm.trans hs

/-- Before a call stores anything: the next block is free, or the call is refused. -/
theorem e100TxPkt_cases (h : Sound s) (buf : Block) (len : ℕ) :
    ((s.cbl (s.accepted.length % E100_CBL_SIZE)).Free ∧
      e100TxPkt buf len s = { s with pc := .copy (s.accepted.length % E100_CBL_SIZE) buf len }) ∨
    ((s.cbl (s.accepted.length % E100_CBL_SIZE)).cmd ≠ TCB_CW_NULL ∧
      e100TxPkt buf len s = { s with ret := -E_NO_BUFS }) := by
  unfold e100TxPkt
  simp only [h.next]
  by_cases hc : (s.cbl (s.accepted.length % E100_CBL_SIZE)).cmd = TCB_CW_NULL
  · have hno : ∀ k, s.Waits k → k % E100_CBL_SIZE ≠ s.accepted.length % E100_CBL_SIZE :=
      fun k hk => h.ring.slot_ne (h.room hc) hk.1 hk.2
    rcases h.others _ (Nat.mod_lt _ (by decide)) hno with hf | hd
    · exact .inl ⟨hf, by rw [if_pos hc, if_pos hf.2]⟩
    · cases hd.1.symm.trans hc
  · exact .inr ⟨hc, by rw [if_neg hc]⟩

/-- A call is let in, or changes at most what it returns. -/
theorem call_cases (h : Sound s) (buf : Block) (len : ℕ) :
    (s.pc = .ready ∧ (s.cbl (s.accepted.length % E100_CBL_SIZE)).Free ∧ len ≤ ETH_PKTSZ_MAX ∧
      call buf len s = { s with pc := .copy (s.accepted.length % E100_CBL_SIZE) buf len }) ∨
    ∃ ret, call buf len s = { s with ret := ret } := by
  unfold call
  split
  · next hpc =>
    unfold sysNetTxPkt
    split
    · exact .inr ⟨_, rfl⟩
    · next hlen =>
      rcases e100TxPkt_cases h buf len with ⟨hf, he⟩ | ⟨_, he⟩
      · exact .inl ⟨hpc, hf, Nat.le_of_not_lt hlen, he⟩
      · exact .inr ⟨_, he⟩
  · exact .inr ⟨s.ret, rfl⟩

theorem Inv.call (h : Inv s) (buf : Block) (len : ℕ) : Inv (call buf len s) := by
  rcases call_cases h.sound buf len with ⟨hpc, hf, hlen, he⟩ | ⟨ret, he⟩ <;> rw [he]
  · have hcr := h.credit
    rw [hpc] at hcr
    exact ⟨h.sound.at_pc _ s.ret, hcr, rfl, hf, hlen⟩
  · exact ⟨h.sound.at_pc s.pc ret, h.credit, h.here⟩

/-- A step of the driver, one case for each place it can be at. -/
theorem Inv.cpu (h : Inv s) : Inv (cpu s) := by
  have hcr := h.credit
  have hat := h.here
  unfold Tx.cpu
  unfold At at hat
  cases hpc : s.pc <;> simp only [hpc] at hat hcr ⊢
  case copy i buf len =>
    obtain ⟨hi, hf, hlen⟩ := hat
    have hst := h.sound.store (b := { s.cbl i with data := (s.cbl i).data.write 0 len buf }) hi hf hf rfl
    refine ⟨hst.at_pc _ s.ret, hcr, hi, ?_, hlen, ?_⟩
    · simpa [Sys.setBlock, Tcb.Free] using hf
    · simp [Sys.setBlock, bytes_write]
  case count i buf len =>
    obtain ⟨hi, hf, hlen, hb⟩ := hat
    have hst := h.sound.store (b := { s.cbl i with bcount := UInt16.ofNat len }) hi hf hf rfl
    refine ⟨hst.at_pc _ s.ret, hcr, hi, ?_, ?_⟩
    · simpa [Sys.setBlock, Tcb.Free] using hf
    · have hcount : (UInt16.ofNat len).toNat = len := Nat.mod_eq_of_lt (lt_of_le_of_lt hlen (by decide))
      simp only [Sys.setBlock, update_self, Tcb.packet, hcount]
      exact hb
  case command i buf len =>
    obtain ⟨hi, hf, hp⟩ := hat
    refine ⟨h.sound.handOver hi hf hp _, ?_, trivial⟩
    show s.sent.length + s.busy + 1 ≤ (s.accepted ++ [_]).length
    rw [List.length_append]
    exact Nat.add_le_add_right hcr 1
  case reclaim i len =>
    split
    · refine ⟨(h.sound.reclaim i).at_pc _ _, ?_, trivial⟩
      simpa [Sys.busy, reclaim_same, Pc.owed] using hcr
    · exact ⟨h.sound.at_pc _ s.ret, hcr, trivial⟩
  case poll len =>
    split
    · exact h
    · next hs => exact ⟨h.sound.at_pc _ s.ret, hcr, by simpa [At] using hs⟩
  case status len =>
    split
    · next hcu => exact ⟨h.sound.at_pc _ s.ret, hcr, hat, hcu⟩
    · next hcu => exact ⟨h.sound.at_pc _ s.ret, hcr, hat, hcu⟩
    · exact ⟨h.sound.at_pc _ _, Nat.le_of_succ_le hcr, trivial⟩
  case pointer len =>
    refine ⟨{ h.sound with starting := fun hs => ?_ }, hcr, hat.1, hat.2, rfl⟩
    cases hat.1.symm.trans hs
  case start len =>
    obtain ⟨hs, hcu, hgp⟩ := hat
    refine ⟨{ h.sound with starting := fun _ => ⟨hcu, hgp⟩, resuming := fun hr => ?_ }, ?_, trivial⟩
    · exact absurd hr (by simp [Sys.finish])
    · simpa [Sys.busy, hs, hcu, Sys.finish, Pc.owed] using hcr
  case resume len =>
    obtain ⟨hs, hcu⟩ := hat
    refine ⟨{ h.sound with starting := fun hr => ?_, resuming := fun _ => hcu }, ?_, trivial⟩
    · exact absurd hr (by simp [Sys.finish])
    · simpa [Sys.busy, hs, hcu, Sys.finish, Pc.owed] using hcr
  case ready => exact h

/-- The driver looks at the unit only when no command waits in the SCB. -/
theorem At.accepting (h : At s) (hs : s.scb ≠ none) (cu : Cu) (pos : ℕ) :
    At { s with scb := none, cu := cu, pos := pos } := by
  unfold At at h ⊢
  cases hpc : s.pc <;> simp only [hpc] at h ⊢
  all_goals first | exact h | exact absurd h hs | exact absurd h.1 hs

theorem Inv.accept (h : Inv s) : Inv (accept s) := by
  have hcr := h.credit
  unfold Tx.accept
  split
  · exact h
  · next hs =>
    obtain ⟨hcu, hgp⟩ := h.sound.starting hs
    have hsent := h.sound.idle hcu
    refine ⟨{ h.sound with idle := nofun, pos := fun _ => ?_, starting := nofun, resuming := nofun }, ?_,
      h.here.accepting (by simp [hs]) _ _⟩
    · rw [hgp, hsent]
      rfl
    · simpa [Sys.busy, hs, hcu] using hcr
  · next hs =>
    have hcu := h.sound.resuming hs
    refine ⟨{ h.sound with idle := nofun, pos := fun _ => ?_, starting := nofun, resuming := nofun }, ?_,
      h.here.accepting (by simp [hs]) _ s.pos⟩
    · exact h.sound.pos (by rw [hcu]; decide)
    · simpa [Sys.busy, hs, hcu] using hcr

/-- While the unit works, the SCB is empty and the block it works on has a packet. -/
theorem Inv.active (h : Inv s) (ha : s.cu = .active) :
    s.scb = none ∧ s.sent.length < s.accepted.length := by
  have hscb : s.scb = none := by
    cases hs : s.scb with
    | none => rfl
    | some c =>
      cases c with
      | start => cases (h.sound.starting hs).1.symm.trans ha
      | resume => cases (h.sound.resuming hs).symm.trans ha
  have hcr := h.credit
  simp only [Sys.busy, ha, if_true] at hcr
  exact ⟨hscb, by omega⟩

theorem Inv.complete (h : Inv s) : Inv (complete s) := by
  by_cases ha : s.cu = .active
  swap
  · rw [Tx.complete, if_neg ha]
    exact h
  obtain ⟨hscb, hd⟩ := h.active ha
  have hcr := h.credit
  have hat := h.here
  refine ⟨h.sound.complete ha hscb hd, ?_, ?_⟩
  · rw [complete_eq h.sound ha hd]
    simp only [Sys.busy, ha, hscb, Sys.setBlock, List.length_append, List.length_singleton] at hcr ⊢
    simpa [Nat.add_right_comm] using hcr
  · -- the block that the driver fills is not the one that the device completes
    have hne : (s.cbl (s.accepted.length % E100_CBL_SIZE)).Free →
        s.accepted.length % E100_CBL_SIZE ≠ s.sent.length % E100_CBL_SIZE := fun hf he =>
      (h.sound.waiting _ ⟨Nat.le_refl _, hd⟩).not_free (he ▸ hf.1)
    rw [complete_eq h.sound ha hd]
    unfold At at hat ⊢
    cases hpc : s.pc <;> simp only [hpc, Sys.setBlock] at hat ⊢
    case copy i buf len | count i buf len | command i buf len =>
      obtain ⟨rfl, hf, hlen⟩ := hat
      rw [update_of_ne (hne hf)]
      exact ⟨rfl, hf, hlen⟩
    case status => exact hat
    case pointer => cases hat.2.symm.trans ha
    case start => cases hat.2.1.symm.trans ha
    case resume => cases hat.2.symm.trans ha

theorem Inv.step (h : Inv s) (e : Ev) : Inv (step e s) := by
  cases e with
  | call buf len => exact h.call buf len
  | cpu => exact h.cpu
  | accept => exact h.accept
  | complete => exact h.complete

theorem Inv.init : Inv init := by
  refine ⟨⟨Ring.Holds.empty _ _, rfl, fun k hk => absurd hk.2 (Nat.not_lt_zero k), fun _ _ _ => .inl ⟨rfl, rfl⟩, ?_,
    rfl, fun _ => rfl, fun h => absurd rfl h, nofun, nofun⟩, Nat.le_refl 0, trivial⟩
  intro k
  exact (Ring.succ_mod k (by decide)).symm

theorem Inv.exec (es : List Ev) : Inv (exec Tx.step es Tx.init) :=
  exec_invariant (fun e _ h => h.step e) es Inv.init

/-! ### First in, first out -/

/-- Calls and steps of the driver. -/
def Ev.ofDriver : Ev → Prop
  | .call .. | .cpu => True
  | .accept | .complete => False

/-- The driver leaves a block alone that it has handed over and the device has not completed. -/
theorem Inv.pending_kept (h : Inv s) (hp : (s.cbl i).Pending) {e : Ev}
    (he : e.ofDriver) : (Tx.step e s).cbl i = s.cbl i := by
  have hfree : ∀ j, (s.cbl j).Free → i ≠ j := fun j hf hij => hp.1 (hij ▸ hf.1)
  cases e with
  | call buf len =>
    simp only [Tx.step]
    rcases call_cases h.sound buf len with ⟨_, _, _, hcall⟩ | ⟨_, hcall⟩ <;> rw [hcall]
  | cpu =>
    have hat := h.here
    simp only [Tx.step, Tx.cpu]
    unfold At at hat
    cases hpc : s.pc <;> simp only [hpc] at hat ⊢
    case copy j buf len | count j buf len | command j buf len => exact update_of_ne (hfree j hat.2.1) _ _
    case reclaim j len =>
      split
      · show (reclaim j s).cbl i = _
        unfold reclaim
        split
        · next hc => exact update_of_ne (fun hij : i = j => hp.2 (hij ▸ hc)) _ _
        · rfl
      · rfl
    case poll => split <;> rfl
    case status => split <;> rfl
    all_goals rfl
  | accept => exact he.elim
  | complete => exact he.elim

/-- **The transmit ring is a safe queue.** Whatever the interleaving, what has left is a beginning
of what was accepted, packet by packet; no assertion fails; and a block the device has not
completed is not changed by the driver. -/
theorem sent_in_order (es : List Ev) :
    let s := exec step es init
    s.sent <+: s.accepted ∧ s.pc ≠ .panic ∧
      ∀ i < E100_CBL_SIZE, (s.cbl i).Pending → ∀ e : Ev, e.ofDriver → (step e s).cbl i = s.cbl i := by
  have h := Inv.exec es
  refine ⟨?_, ?_, fun _ _ hp _ he => h.pending_kept hp he⟩
  · rw [h.sound.order]
    exact List.take_prefix _ _
  · intro hpc
    have hat := h.here
    simp only [At, hpc] at hat

/-! ### A full ring

Completed blocks are reclaimed only by a call that has found a block for its
own packet. If the device completes nothing between the first packet and the
reclaim loop of the thirteenth, all blocks are in use after that call, no later
call gets as far as the loop, and the ring stays full.
-/

/-- The call is refused for want of a block. -/
def Refused (s : Sys) (buf : Block) (len : ℕ) : Prop :=
  (call buf len s).pc = .ready ∧ (call buf len s).ret = -E_NO_BUFS

instance (s : Sys) (buf : Block) (len : ℕ) : Decidable (Refused s buf len) :=
  inferInstanceAs (Decidable (_ ∧ _))

/-- Between calls: a call is refused only when each block has a packet that the device has not
completed, and once the block of the oldest packet is completed a call is let in. -/
structure Recovers (s : Sys) : Prop where
  refused : ∀ buf len, Refused s buf len → ∀ i < E100_CBL_SIZE, (s.cbl i).Pending
  accepted : (s.cbl (nextTx s.lastTxId)).Complete → ∀ buf len, len ≤ ETH_PKTSZ_MAX →
    (call buf len s).pc = .copy (nextTx s.lastTxId) buf len

/-- Calls are made with at most `E100_CBL_SIZE - 2` packets outstanding. -/
def Slack : Ev → Sys → Prop
  | .call .., s => s.accepted.length + 2 ≤ s.sent.length + E100_CBL_SIZE
  | _, _ => True

instance (e : Ev) (s : Sys) : Decidable (Slack e s) :=
  match e with
  | .call .. => inferInstanceAs (Decidable (_ ≤ _))
  | .cpu | .accept | .complete => .isTrue trivial

/-- The block of the next packet is free, or the call in progress will see to it. -/
def NextFree (s : Sys) : Prop :=
  match s.pc with
  | .copy .. | .count .. | .command .. => s.accepted.length + 2 ≤ s.sent.length + E100_CBL_SIZE
  | .reclaim j _ => s.accepted.length + 1 ≤ s.sent.length + E100_CBL_SIZE ∧
      (s.accepted.length % E100_CBL_SIZE < j → (s.cbl (s.accepted.length % E100_CBL_SIZE)).cmd = TCB_CW_NULL)
  | _ => (s.cbl (s.accepted.length % E100_CBL_SIZE)).cmd = TCB_CW_NULL

/-- With a block to spare, the loop frees the block of the next packet when it comes to it. -/
theorem Sound.reclaim_next (h : Sound s) (hroom : s.accepted.length < s.sent.length + E100_CBL_SIZE) :
    ((Tx.reclaim (s.accepted.length % E100_CBL_SIZE) s).cbl (s.accepted.length % E100_CBL_SIZE)).cmd =
      TCB_CW_NULL := by
  have hno : ∀ k, s.Waits k → k % E100_CBL_SIZE ≠ s.accepted.length % E100_CBL_SIZE :=
    fun k hk => h.ring.slot_ne hroom hk.1 hk.2
  unfold Tx.reclaim
  rcases h.others _ (Nat.mod_lt _ (by decide)) hno with hf | hd
  · rw [if_neg hf.not_complete]
    exact hf.1
  · rw [if_pos hd.complete]
    simp [Sys.setBlock]

/-- The device changes no command word. -/
theorem complete_cmd (s : Sys) (i : ℕ) : ((complete s).cbl i).cmd = (s.cbl i).cmd := by
  unfold complete
  split
  · by_cases hi : i = s.pos <;> simp [Sys.setBlock, hi]
  · rfl

/-- The loop takes no command word back to a packet. -/
theorem reclaim_cmd (h : (s.cbl i).cmd = TCB_CW_NULL) (j : ℕ) : ((reclaim j s).cbl i).cmd = TCB_CW_NULL := by
  unfold reclaim
  split
  · by_cases hi : i = j
    · simp [Sys.setBlock, hi]
    · simpa [Sys.setBlock, hi] using h
  · exact h

theorem complete_lists (s : Sys) : (complete s).accepted = s.accepted ∧ s.sent.length ≤ (complete s).sent.length ∧
    (complete s).pc = s.pc := by
  unfold complete
  split
  · refine ⟨rfl, ?_, rfl⟩
    show _ ≤ (if _ then _ else _ : List (List UInt8)).length
    split
    · simp
    · exact Nat.le_refl _
  · exact ⟨rfl, Nat.le_refl _, rfl⟩

theorem NextFree.call (h : NextFree s) (hi : Inv s) {buf : Block} {len : ℕ} (hs : Slack (.call buf len) s) :
    NextFree (call buf len s) := by
  rcases call_cases hi.sound buf len with ⟨_, _, _, he⟩ | ⟨_, he⟩ <;> rw [he]
  · exact hs
  · exact h

theorem NextFree.cpu (h : NextFree s) (hi : Inv s) : NextFree (cpu s) := by
  have hold := h
  unfold Tx.cpu
  unfold NextFree at h
  cases hpc : s.pc <;> simp only [hpc] at h ⊢
  case command i buf len =>
    refine ⟨?_, fun hlt => absurd hlt (Nat.not_lt_zero _)⟩
    dsimp only [Sys.setBlock]
    rw [List.length_append]
    exact h
  case reclaim j len =>
    obtain ⟨hroom, hdone⟩ := h
    split
    · simp only [NextFree, reclaim_same]
      refine ⟨hroom, fun hlt => ?_⟩
      rcases Nat.lt_or_ge (s.accepted.length % E100_CBL_SIZE) j with hlt' | hge
      · exact reclaim_cmd (hdone hlt') j
      · obtain rfl : j = s.accepted.length % E100_CBL_SIZE := by omega
        exact hi.sound.reclaim_next hroom
    · next hj => exact hdone (lt_of_lt_of_le (Nat.mod_lt _ (by decide)) (Nat.le_of_not_lt hj))
  case poll len =>
    split
    · exact hold
    · exact h
  case status len => split <;> exact h
  case ready | panic => exact hold
  all_goals exact h

theorem NextFree.accept (h : NextFree s) : NextFree (accept s) := by
  unfold Tx.accept
  split <;> exact h

theorem NextFree.complete (h : NextFree s) : NextFree (complete s) := by
  obtain ⟨ha, hs, hpc⟩ := complete_lists s
  unfold NextFree at h ⊢
  rw [hpc, ha]
  cases hat : s.pc <;> simp only [hat, complete_cmd] at h ⊢
  case copy | count | command => omega
  case reclaim => exact ⟨by omega, h.2⟩
  all_goals exact h

/-- **A ring with slack takes every packet.** If no call is made with more than `E100_CBL_SIZE - 2`
packets outstanding, every state between calls recovers. -/
theorem accepted_after_slack (es : List Ev) (h : Throughout step Slack es init)
    (hready : (exec step es init).pc = .ready) : Recovers (exec step es init) := by
  have hinv : Inv (exec step es init) ∧ NextFree (exec step es init) := by
    refine exec_invariant_of (I := fun s => Inv s ∧ NextFree s) (C := Slack) (fun e s hs hC => ?_) es
      ⟨Inv.init, rfl⟩ h
    refine ⟨hs.1.step e, ?_⟩
    cases e with
    | call buf len => exact hs.2.call hs.1 hC
    | cpu => exact hs.2.cpu hs.1
    | accept => exact hs.2.accept
    | complete => exact hs.2.complete
  obtain ⟨hi, hn⟩ := hinv
  simp only [NextFree, hready] at hn
  have hlet : ∀ buf len, len ≤ ETH_PKTSZ_MAX →
      (call buf len (exec step es init)).pc = .copy (nextTx (exec step es init).lastTxId) buf len := by
    intro buf len hlen
    simp only [call, hready, sysNetTxPkt, if_neg (Nat.not_lt.mpr hlen)]
    rcases e100TxPkt_cases hi.sound buf len with ⟨_, he⟩ | ⟨hc, _⟩
    · rw [he, hi.sound.next]
    · exact absurd hn hc
  refine ⟨fun buf len hr => ?_, fun _ => hlet⟩
  rcases Nat.lt_or_ge ETH_PKTSZ_MAX len with hlen | hlen
  · have := hr.2
    simp only [call, hready, sysNetTxPkt, if_pos hlen] at this
    cases this
  · cases (hlet buf len hlen).symm.trans hr.1

/-- The steps of a call that is let in and finds nothing in the SCB, up to its return when the unit
works, or at most two steps earlier. -/
def callSteps : List Ev := .call (fun _ => 0) 60 :: List.replicate (3 + E100_CBL_SIZE + 3) .cpu

theorem accepted_after_slack_one :
    Throughout step Slack (callSteps ++ [.cpu, .cpu]) init ∧ Recovers (exec step (callSteps ++ [.cpu, .cpu]) init) :=
  have h : Throughout step Slack (callSteps ++ [.cpu, .cpu]) init := by decide +kernel
  ⟨h, accepted_after_slack _ h (by decide +kernel)⟩

/-- Between calls, with every block in use. -/
def Full (s : Sys) : Prop := s.pc = .ready ∧ ∀ i < E100_CBL_SIZE, (s.cbl i).cmd ≠ TCB_CW_NULL

instance (s : Sys) : Decidable (Full s) := inferInstanceAs (Decidable (_ ∧ _))

/-- A call finds no block and reclaims none; the device changes no command word. -/
theorem Full.step (h : Full s) (hi : nextTx s.lastTxId < E100_CBL_SIZE) (e : Ev) :
    Full (step e s) ∧ (step e s).lastTxId = s.lastTxId ∧ (step e s).accepted = s.accepted := by
  cases e with
  | call buf len =>
    simp only [Tx.step, Tx.call, h.1, sysNetTxPkt, e100TxPkt, if_neg (h.2 _ hi)]
    split <;> exact ⟨⟨rfl, h.2⟩, rfl, rfl⟩
  | cpu =>
    simp only [Tx.step, Tx.cpu, h.1]
    exact ⟨h, trivial, trivial⟩
  | accept =>
    simp only [Tx.step, Tx.accept]
    split <;> exact ⟨h, rfl, rfl⟩
  | complete =>
    obtain ⟨ha, _, hpc⟩ := complete_lists s
    refine ⟨⟨hpc.trans h.1, fun i hi' => ?_⟩, ?_, ha⟩
    · simp only [Tx.step, complete_cmd]
      exact h.2 i hi'
    · simp only [Tx.step, Tx.complete]
      split <;> rfl

theorem Full.exec (hi : nextTx s.lastTxId < E100_CBL_SIZE) (h : Full s) (es : List Ev) :
    Full (exec Tx.step es s) ∧ (Jos.exec Tx.step es s).accepted = s.accepted := by
  have hstep : ∀ e t, (Full t ∧ t.lastTxId = s.lastTxId ∧ t.accepted = s.accepted) →
      Full (Tx.step e t) ∧ (Tx.step e t).lastTxId = s.lastTxId ∧ (Tx.step e t).accepted = s.accepted := by
    rintro e t ⟨hfull, hlast, hacc⟩
    obtain ⟨hf, hl, ha⟩ := hfull.step (by rw [hlast]; exact hi) e
    exact ⟨hf, hl.trans hlast, ha.trans hacc⟩
  have hrun := exec_invariant hstep es ⟨h, rfl, rfl⟩
  exact ⟨hrun.1, hrun.2.2⟩

/-- The device takes the first packet, and completes it after the thirteenth has been put into the ring. -/
def burst : List Ev :=
  callSteps ++ [.cpu, .cpu, .accept] ++ (List.replicate (E100_CBL_SIZE - 1) callSteps).flatten ++ [.complete]

/-- The oldest packet of the full ring has left, and still no call is ever accepted again. -/
theorem stuck_full :
    let s := exec step burst init
    s.pc = .ready ∧ (s.cbl (nextTx s.lastTxId)).Complete ∧ Refused s (fun _ => 0) 60 ∧
      ∀ es, (exec step es s).accepted = s.accepted := by
  have hfull : Full (exec step burst init) := by decide +kernel
  have hi : nextTx (exec step burst init).lastTxId < E100_CBL_SIZE := by decide +kernel
  exact ⟨hfull.1, by decide +kernel, by decide +kernel, fun es => (hfull.exec hi es).2⟩

/-! ### Wake-ups

Every block has the S bit, so the unit does one packet for each command. A call
that finds the unit at work gives no command, and nothing else gives one for
its packet later.
-/

/-- No call is in progress, the unit rests and has been told nothing. -/
def Resting (s : Sys) : Prop := s.pc = .ready ∧ s.cu ≠ .active ∧ s.scb = none

/-- The driver's next step reads the unit's state. -/
def Pc.readsStatus : Pc → Bool
  | .status _ => true
  | _ => false

/-- `restart_cu` reads the unit's state only when it does not work. -/
def FindsRest : Ev → Sys → Prop
  | .cpu, s => s.pc.readsStatus → s.cu ≠ .active
  | _, _ => True

instance (e : Ev) (s : Sys) : Decidable (FindsRest e s) :=
  match e with
  | .cpu => inferInstanceAs (Decidable (_ → _))
  | .call .. | .accept | .complete => .isTrue trivial

/-- A command has been given, or will be, for each packet that has not left. -/
def Paid (s : Sys) : Prop := s.sent.length + s.busy + s.pc.owed = s.accepted.length

theorem Paid.call (h : Paid s) (hi : Inv s) (buf : Block) (len : ℕ) : Paid (call buf len s) := by
  rcases call_cases hi.sound buf len with ⟨hpc, _, _, he⟩ | ⟨_, he⟩ <;> rw [he]
  · unfold Paid at h
    rw [hpc] at h
    exact h
  · exact h

theorem Paid.cpu (h : Paid s) (hi : Inv s) (hC : FindsRest .cpu s) : Paid (cpu s) := by
  have hat := hi.here
  have hold := h
  unfold Tx.cpu
  unfold Paid at h
  unfold At at hat
  cases hpc : s.pc <;> simp only [hpc] at h hat ⊢
  case command i buf len =>
    show s.sent.length + s.busy + 1 = (s.accepted ++ [_]).length
    rw [List.length_append, ← h]
    rfl
  case reclaim j len =>
    split
    · simpa [Paid, Sys.busy, reclaim_same, Pc.owed] using h
    · exact h
  case poll len =>
    split
    · exact hold
    · exact h
  case status len =>
    split
    · exact h
    · exact h
    · next ha => exact absurd ha (hC (by rw [hpc]; rfl))
  case start len => simpa [Paid, Sys.busy, hat.1, hat.2.1, Sys.finish, Pc.owed] using h
  case resume len => simpa [Paid, Sys.busy, hat.1, hat.2, Sys.finish, Pc.owed] using h
  case ready => exact hold
  all_goals exact h

/-- A command in the SCB becomes a block in work. -/
theorem busy_accept (h : Inv s) : (accept s).busy = s.busy := by
  unfold accept
  split
  · rfl
  · next hs => simp [Sys.busy, hs, (h.sound.starting hs).1]
  · next hs => simp [Sys.busy, hs, h.sound.resuming hs]

theorem Paid.accept (h : Paid s) (hi : Inv s) : Paid (accept s) := by
  have hb := busy_accept hi
  have hsame : (Tx.accept s).sent = s.sent ∧ (Tx.accept s).accepted = s.accepted ∧ (Tx.accept s).pc = s.pc := by
    unfold Tx.accept
    split <;> exact ⟨rfl, rfl, rfl⟩
  simpa only [Paid, hsame, hb] using h

theorem Paid.complete (h : Paid s) (hi : Inv s) : Paid (complete s) := by
  by_cases ha : s.cu = .active
  · obtain ⟨hscb, hd⟩ := hi.active ha
    rw [complete_eq hi.sound ha hd]
    simp only [Paid, Sys.busy, ha, hscb, Sys.setBlock, List.length_append, List.length_singleton] at h ⊢
    simpa [Nat.add_right_comm] using h
  · rw [Tx.complete, if_neg ha]
    exact h

/-- **No packet is forgotten** in a run in which every call finds the unit at rest: whenever the unit
rests between calls, everything accepted has left and no block waits for it. -/
theorem none_forgotten (es : List Ev) (h : Throughout step FindsRest es init)
    (hrest : Resting (exec step es init)) :
    (exec step es init).sent = (exec step es init).accepted ∧
      ∀ i < E100_CBL_SIZE, ¬ ((exec step es init).cbl i).Pending := by
  have hinv : Inv (exec step es init) ∧ Paid (exec step es init) := by
    refine exec_invariant_of (I := fun s => Inv s ∧ Paid s) (C := FindsRest) (fun e s hs hC => ?_) es
      ⟨Inv.init, rfl⟩ h
    refine ⟨hs.1.step e, ?_⟩
    cases e with
    | call buf len => exact hs.2.call hs.1 buf len
    | cpu => exact hs.2.cpu hs.1 hC
    | accept => exact hs.2.accept hs.1
    | complete => exact hs.2.complete hs.1
  obtain ⟨hi, hp⟩ := hinv
  obtain ⟨hpc, hcu, hscb⟩ := hrest
  have hall : (exec step es init).sent.length = (exec step es init).accepted.length := by
    simpa [Paid, Sys.busy, hpc, hcu, hscb, Pc.owed] using hp
  refine ⟨?_, fun i hi' hpend => ?_⟩
  · rw [hi.sound.order, hall, List.take_length]
  · obtain ⟨k, ⟨hk1, hk2⟩, _⟩ := hi.sound.waits_of_pending hi' hpend
    omega

/-- Two packets, the second after the first has left. -/
def oneByOne : List Ev :=
  callSteps ++ [.cpu, .cpu, .accept, .complete] ++ callSteps ++ [.cpu, .accept, .complete]

instance (s : Sys) : Decidable (Resting s) := inferInstanceAs (Decidable (_ ∧ _ ∧ _))

theorem none_forgotten_one_by_one :
    Throughout step FindsRest oneByOne init ∧ Resting (exec step oneByOne init) ∧
      (exec step oneByOne init).accepted.length = 2 ∧
      (exec step oneByOne init).sent = (exec step oneByOne init).accepted :=
  have h : Throughout step FindsRest oneByOne init := by decide +kernel
  have hr : Resting (exec step oneByOne init) := by decide +kernel
  ⟨h, hr, by decide +kernel, (none_forgotten _ h hr).1⟩

/-- The second packet is put into the ring while the unit sends the first. -/
def overlapped : List Ev := callSteps ++ [.cpu, .cpu, .accept] ++ callSteps ++ [.complete]

/-- The second packet waits at a suspended unit that has been told nothing. -/
theorem forgotten :
    let s := exec step overlapped init
    Resting s ∧ (s.cbl 1).Pending ∧ s.accepted.length = 2 ∧ s.sent.length = 1 := by
  decide +kernel

end Tx
end Net
end Jos
