/-
# The receive ring of the e100 driver

The device stores arriving frames into the frame descriptors in link order.
`e100_rx_pkt` takes the frame of the descriptor after the last one it took
from, frees the descriptor, and restarts the receive unit if that is suspended
(`restart_rx`). Only the last descriptor has the S bit, and on a resume the
unit goes on with the next descriptor whatever is in it.

A run is any interleaving of frames, of calls, of the driver's steps and of the
device taking a command. A frame that finds the unit not receiving is lost on
the wire; the claim to keep is about those that have been stored.

* `kept_of_run`: as long as no frame is stored while all `E100_RFA_SIZE`
  descriptors are unread, the frames returned are the frames stored, in order.
* `overwritten`: the ring is full, one frame is taken, which resumes the unit,
  and the second frame that then arrives replaces one that nobody has read.
-/
import Jos.Net.Transmit

namespace Jos
namespace Net
namespace Rx

open Function

/-- `E100_RFA_SIZE`. -/
abbrev E100_RFA_SIZE : ℕ := 10 * 4096 / sizeofCrb

abbrev RFD_SW_NULL : UInt16 := 0x0
abbrev RFD_SW_OK : UInt16 := 0x2000
abbrev RFD_SW_C : UInt16 := 0x8000
abbrev RFD_CW_CMD : UInt16 := 0x4
abbrev RFD_CW_S : UInt16 := 0x4000
abbrev RFD_AC_NULL : UInt16 := 0x0
abbrev RFD_AC_DMASK : UInt16 := 0x3fff
abbrev RFD_AC_F : UInt16 := 0x4000
abbrev RFD_AC_EOF : UInt16 := 0x8000

/-- A frame descriptor; `link` is the descriptor that `link` points to. -/
structure Rfd where
  status : UInt16
  cmd : UInt16
  link : ℕ
  count : UInt16
  size : UInt16
  data : Block

/-- The length in the count word. -/
def Rfd.len (d : Rfd) : ℕ := (d.count &&& RFD_AC_DMASK).toNat

/-- The frame in a descriptor. -/
def Rfd.frame (d : Rfd) : List UInt8 := bytes d.data d.len

/-- The test for a stored frame. -/
def Rfd.Stored (d : Rfd) : Prop := d.status &&& (RFD_SW_C ||| RFD_SW_OK) = RFD_SW_C ||| RFD_SW_OK

instance (d : Rfd) : Decidable d.Stored := inferInstanceAs (Decidable (_ = _))

/-- The device has written the count word. -/
def Rfd.Counted (d : Rfd) : Prop := d.count &&& (RFD_AC_EOF ||| RFD_AC_F) = RFD_AC_EOF ||| RFD_AC_F

instance (d : Rfd) : Decidable d.Counted := inferInstanceAs (Decidable (_ = _))

/-- States of the receive unit. -/
inductive Ru
  | idle
  | suspended
  | receiving
  deriving DecidableEq

/-- Commands to it. -/
inductive Ruc
  | start
  | resume
  deriving DecidableEq

/-- Where the driver is in a call; the frame is what has been copied out. -/
inductive Pc
  | ready
  | copy (i : ℕ)
  | clearCount (i : ℕ) (frame : List UInt8)
  | clearStatus (i : ℕ) (frame : List UInt8)
  | poll (len : ℕ)
  | status (len : ℕ)
  | pointer (len : ℕ)
  | start (len : ℕ)
  | resume (len : ℕ)
  | panic
  deriving DecidableEq

/-- Driver, ring and device, with the frames that arrived, those that were stored and those returned. -/
structure Sys where
  rfa : ℕ → Rfd
  lastRxId : ℕ
  pc : Pc
  ret : ℤ
  ru : Ru
  scb : Option Ruc
  gp : ℕ
  pos : ℕ
  arrived : List (List UInt8)
  stored : List (List UInt8)
  returned : List (List UInt8)

/-- `init_dma_rings` and the rest of the attach function, which ends in `restart_rx`. -/
def init : Sys where
  rfa i := {
    status := RFD_SW_NULL
    cmd := if i = E100_RFA_SIZE - 1 then RFD_CW_S else RFD_CW_CMD
    link := if i = E100_RFA_SIZE - 1 then 0 else i + 1
    count := RFD_AC_NULL
    size := UInt16.ofNat ETH_PKTSZ_MAX
    data := fun _ => 0 }
  lastRxId := E100_RFA_SIZE - 1
  pc := .ready
  ret := 0
  ru := .idle
  scb := some .start
  gp := 0
  pos := 0
  arrived := []
  stored := []
  returned := []

/-- A descriptor changed. -/
def Sys.setRfd (s : Sys) (i : ℕ) (d : Rfd) : Sys := { s with rfa := update s.rfa i d }

/-! ### The driver -/

/-- The descriptor after `last_rx_id`. -/
def nextRx (last : ℕ) : ℕ := if last = E100_RFA_SIZE - 1 then 0 else last + 1

/-- `e100_rx_pkt` up to the copy, with its assertions. -/
def e100RxPkt (len : ℕ) (s : Sys) : Sys :=
  let i := nextRx s.lastRxId
  if (s.rfa i).Stored then
    if (s.rfa i).Counted ∧ (s.rfa i).len ≤ len then { s with pc := .copy i } else { s with pc := .panic }
  else { s with ret := -E_NO_DATA }

/-- `sys_net_rx_pkt`, the only caller. -/
def sysNetRxPkt (len : ℕ) (s : Sys) : Sys :=
  if len > ETH_PKTSZ_MAX then { s with ret := -E_INVAL } else e100RxPkt len s

/-- A call, when none is in progress. -/
def call (len : ℕ) (s : Sys) : Sys :=
  match s.pc with
  | .ready => sysNetRxPkt len s
  | _ => s

/-- The call returns. -/
def Sys.finish (s : Sys) (len : ℕ) : Sys := { s with pc := .ready, ret := len }

/-- The driver's next step: the rest of `e100_rx_pkt`, with `restart_rx` from `poll` on. -/
def cpu (s : Sys) : Sys :=
  match s.pc with
  | .copy i => { s with pc := .clearCount i (s.rfa i).frame }
  | .clearCount i frame =>
    { s.setRfd i { s.rfa i with count := RFD_AC_NULL } with pc := .clearStatus i frame }
  | .clearStatus i frame =>
    { s.setRfd i { s.rfa i with status := RFD_SW_NULL } with
      lastRxId := i, pc := .poll frame.length, returned := s.returned ++ [frame] }
  | .poll len => if s.scb.isSome then s else { s with pc := .status len }
  | .status len =>
    match s.ru with
    | .idle => { s with pc := .pointer len }
    | .suspended => { s with pc := .resume len }
    | .receiving => s.finish len
  | .pointer len => { s with gp := 0, pc := .start len }
  | .start len => { s with scb := some .start }.finish len
  | .resume len => { s with scb := some .resume }.finish len
  | .ready | .panic => s

/-! ### The device -/

/-- The device takes the command from the SCB. -/
def accept (s : Sys) : Sys :=
  match s.scb with
  | none => s
  | some .start => { s with scb := none, ru := .receiving, pos := s.gp }
  | some .resume => { s with scb := none, ru := .receiving }

/-- The device stores a frame of `len` bytes into a descriptor. -/
def Rfd.fill (d : Rfd) (buf : Block) (len : ℕ) : Rfd :=
  { d with
    data := d.data.write 0 len buf
    count := UInt16.ofNat len ||| (RFD_AC_EOF ||| RFD_AC_F)
    status := d.status ||| (RFD_SW_C ||| RFD_SW_OK) }

/-- A frame of `len` bytes arrives: a receiving unit stores it, if the descriptor has the room, into
the descriptor it is at, and suspends there if that has the S bit. -/
def frame (buf : Block) (len : ℕ) (s : Sys) : Sys :=
  let d := s.rfa s.pos
  if s.ru = .receiving ∧ len ≤ d.size.toNat then
    { s.setRfd s.pos (d.fill buf len) with
      arrived := s.arrived ++ [bytes buf len]
      stored := s.stored ++ [bytes buf len]
      pos := d.link
      ru := if d.cmd &&& RFD_CW_S ≠ 0 then .suspended else .receiving }
  else { s with arrived := s.arrived ++ [bytes buf len] }

/-- What can happen: a frame, a call, or a step of driver or device. -/
inductive Ev
  | frame (buf : Block) (len : ℕ)
  | call (len : ℕ)
  | cpu
  | accept

def step : Ev → Sys → Sys
  | .frame buf len, s => frame buf len s
  | .call len, s => call len s
  | .cpu, s => cpu s
  | .accept, s => accept s

/-! ### The invariant

The unread frames, from `returned.length` on, are in consecutive descriptors.
The first of them may already be copied out, its descriptor half cleared: the
driver holds it then (`Pc.held`).
-/

/-- The frame that the driver has copied and not yet given up the descriptor of. -/
def Pc.held : Pc → ℕ
  | .clearCount .. | .clearStatus .. => 1
  | _ => 0

/-- Frame `k` is in its descriptor, or held by the driver. -/
def Sys.Unread (s : Sys) (k : ℕ) : Prop := s.returned.length ≤ k ∧ k < s.stored.length

/-- What the driver has found out and copied so far in the call. -/
def At (s : Sys) : Prop :=
  match s.pc with
  | .ready | .poll _ | .panic => True
  | .status _ => s.scb = none
  | .copy i => i = s.returned.length % E100_RFA_SIZE ∧ s.returned.length < s.stored.length
  | .clearCount i frame | .clearStatus i frame =>
      i = s.returned.length % E100_RFA_SIZE ∧ s.stored[s.returned.length]? = some frame
  | .pointer _ => s.scb = none ∧ s.ru = .idle
  | .start _ => s.scb = none ∧ s.ru = .idle ∧ s.gp = 0
  | .resume _ => s.scb = none ∧ s.ru = .suspended

structure Inv (s : Sys) : Prop where
  ring : Ring.Holds E100_RFA_SIZE (fun i => (s.rfa i).frame) s.stored (s.returned.length + s.pc.held)
  room : s.stored.length ≤ s.returned.length + E100_RFA_SIZE
  order : s.returned = s.stored.take s.returned.length
  unread : ∀ k, s.Unread k → (s.rfa (k % E100_RFA_SIZE)).Stored
  counted : ∀ k, s.returned.length + s.pc.held ≤ k → k < s.stored.length → (s.rfa (k % E100_RFA_SIZE)).Counted
  others : ∀ i < E100_RFA_SIZE, (∀ k, s.Unread k → k % E100_RFA_SIZE ≠ i) → (s.rfa i).status = RFD_SW_NULL
  link : ∀ k, (s.rfa (k % E100_RFA_SIZE)).link = (k + 1) % E100_RFA_SIZE
  size : ∀ i, (s.rfa i).size = UInt16.ofNat ETH_PKTSZ_MAX
  next : nextRx s.lastRxId = s.returned.length % E100_RFA_SIZE
  pos : s.ru ≠ .idle → s.pos = s.stored.length % E100_RFA_SIZE
  idle : s.ru = .idle → s.stored = []
  starting : s.scb = some .start → s.ru = .idle ∧ s.gp = 0
  resuming : s.scb = some .resume → s.ru = .suspended
  arrived : s.stored.Sublist s.arrived
  short : ∀ f ∈ s.stored, f.length ≤ ETH_PKTSZ_MAX
  here : At s

variable {s : Sys} {i : ℕ}

/-- The count word of a frame of `n` bytes. -/
theorem count_word : ∀ n ≤ ETH_PKTSZ_MAX,
    (UInt16.ofNat n ||| (RFD_AC_EOF ||| RFD_AC_F)) &&& (RFD_AC_EOF ||| RFD_AC_F) = RFD_AC_EOF ||| RFD_AC_F ∧
    ((UInt16.ofNat n ||| (RFD_AC_EOF ||| RFD_AC_F)) &&& RFD_AC_DMASK).toNat = n := by
  decide +kernel

namespace Inv

/-- The descriptor of the next frame to return, while there is one. -/
theorem stored_next (h : Inv s) : (s.rfa (nextRx s.lastRxId)).Stored ↔ s.returned.length < s.stored.length := by
  rw [h.next]
  constructor
  · intro hs
    by_contra hno
    have hnull := h.others _ (Nat.mod_lt s.returned.length (by decide)) fun k hk => by
      have := hk.1
      have := hk.2
      omega
    rw [Rfd.Stored, hnull] at hs
    cases hs
  · intro hlt
    exact h.unread _ ⟨Nat.le_refl _, hlt⟩

/-- The length of the frame to return. -/
theorem len_next (h : Inv s) (hpc : s.pc = .ready) (hlt : s.returned.length < s.stored.length) :
    (s.rfa (nextRx s.lastRxId)).len ≤ ETH_PKTSZ_MAX := by
  have hget := h.ring.entry s.returned.length (by rw [hpc]; exact Nat.le_refl _) hlt
  have hlen := h.short _ (List.mem_of_getElem? hget)
  simpa [Rfd.frame, bytes, h.next] using hlen

/-- Before a call copies anything: there is a frame to return, or not. -/
theorem e100RxPkt_cases (h : Inv s) (hpc : s.pc = .ready) (len : ℕ) :
    (s.returned.length < s.stored.length ∧
      (e100RxPkt len s = { s with pc := .copy (nextRx s.lastRxId) } ∨
        len < (s.rfa (nextRx s.lastRxId)).len ∧ e100RxPkt len s = { s with pc := .panic })) ∨
    (s.returned.length = s.stored.length ∧ e100RxPkt len s = { s with ret := -E_NO_DATA }) := by
  have hle := h.ring.le
  unfold e100RxPkt
  by_cases hs : (s.rfa (nextRx s.lastRxId)).Stored
  · have hlt := h.stored_next.mp hs
    have hc : (s.rfa (nextRx s.lastRxId)).Counted := by
      rw [h.next]
      exact h.counted _ (by rw [hpc]; exact Nat.le_refl _) hlt
    refine .inl ⟨hlt, ?_⟩
    by_cases hl : (s.rfa (nextRx s.lastRxId)).len ≤ len
    · left
      simp only [if_pos hs, if_pos (And.intro hc hl)]
    · right
      refine ⟨Nat.lt_of_not_le hl, ?_⟩
      simp only [if_pos hs, if_neg (fun hh : _ ∧ _ => hl hh.2)]
  · refine .inr ⟨?_, by simp only [if_neg hs]⟩
    have := mt h.stored_next.mpr hs
    omega

/-- The driver goes on, with as many frames held as before. -/
theorem move (h : Inv s) {pc : Pc} {ret : ℤ} (hheld : pc.held = s.pc.held) (hat : At { s with pc := pc, ret := ret }) :
    Inv { s with pc := pc, ret := ret } :=
  { h with
    ring := hheld.symm ▸ h.ring
    counted := fun k hk => h.counted k (hheld ▸ hk)
    here := hat }

theorem call (h : Inv s) (len : ℕ) : Inv (call len s) := by
  unfold Rx.call
  split
  · next hpc =>
    have hheld : s.pc.held = 0 := by rw [hpc]; rfl
    unfold sysNetRxPkt
    split
    · exact h.move rfl h.here
    · rcases h.e100RxPkt_cases hpc len with ⟨hlt, he | ⟨_, he⟩⟩ | ⟨_, he⟩ <;> rw [he]
      · exact h.move hheld.symm ⟨h.next, hlt⟩
      · exact h.move hheld.symm trivial
      · exact h.move rfl h.here
  · exact h

/-- The frames behind the first unread one are in other descriptors. -/
theorem slot_ne (h : Inv s) {k : ℕ} (hk : s.returned.length + 1 ≤ k) (hk' : k < s.stored.length) :
    k % E100_RFA_SIZE ≠ s.returned.length % E100_RFA_SIZE := by
  intro he
  have hroom := h.room
  have := Ring.slot_inj (a := s.returned.length) (by omega) (by omega) (Nat.le_refl _) (by omega) he
  omega

/-- The descriptor of a held or returned frame gets back its words; nothing else changes. -/
theorem clearCount (h : Inv s) {frame : List UInt8} (hpc : s.pc = .clearCount i frame) :
    Inv { s.setRfd i { s.rfa i with count := RFD_AC_NULL } with pc := .clearStatus i frame } := by
  have hat := h.here
  have hring := h.ring
  have hcounted := h.counted
  simp only [At, hpc] at hat
  rw [hpc] at hring hcounted
  obtain ⟨hi, hf⟩ := hat
  have hne : ∀ k, s.returned.length + 1 ≤ k → k < s.stored.length → k % E100_RFA_SIZE ≠ i :=
    fun k hk hk' => hi ▸ h.slot_ne hk hk'
  have hsame : ∀ j, let d := update s.rfa i { s.rfa i with count := RFD_AC_NULL } j
      d.status = (s.rfa j).status ∧ d.link = (s.rfa j).link ∧ d.size = (s.rfa j).size := by
    intro j
    by_cases hj : j = i
    · subst hj
      simp
    · simp [hj]
  refine { h with
    ring := hring.congr fun k hk hk' => ?_
    unread := fun k hk => ?_
    counted := fun k hk hk' => ?_
    others := fun j hj hno => (hsame j).1.trans (h.others j hj hno)
    link := fun k => (hsame _).2.1.trans (h.link k)
    size := fun j => (hsame j).2.2.trans (h.size j)
    here := ⟨hi, hf⟩ }
  · show (update s.rfa i _ _).frame = _
    rw [update_of_ne (hne k hk hk')]
  · show (update s.rfa i _ _).Stored
    rw [Rfd.Stored, (hsame _).1]
    exact h.unread k hk
  · show (update s.rfa i _ _).Counted
    rw [update_of_ne (hne k hk hk')]
    exact hcounted k hk hk'

theorem clearStatus (h : Inv s) {frame : List UInt8} (hpc : s.pc = .clearStatus i frame) :
    Inv { s.setRfd i { s.rfa i with status := RFD_SW_NULL } with
      lastRxId := i, pc := .poll frame.length, returned := s.returned ++ [frame] } := by
  have hat := h.here
  have hring := h.ring
  have hcounted := h.counted
  simp only [At, hpc] at hat
  rw [hpc] at hring hcounted
  obtain ⟨hi, hf⟩ := hat
  have hlt : s.returned.length < s.stored.length := (List.getElem?_eq_some_iff.mp hf).1
  have hlen : (s.returned ++ [frame]).length = s.returned.length + 1 := by simp
  have hne : ∀ k, s.returned.length + 1 ≤ k → k < s.stored.length → k % E100_RFA_SIZE ≠ i :=
    fun k hk hk' => hi ▸ h.slot_ne hk hk'
  have hsame : ∀ j, let d := update s.rfa i { s.rfa i with status := RFD_SW_NULL } j
      d.frame = (s.rfa j).frame ∧ d.count = (s.rfa j).count ∧ d.link = (s.rfa j).link ∧
        d.size = (s.rfa j).size := by
    intro j
    by_cases hj : j = i
    · subst hj
      simp [Rfd.frame, Rfd.len]
    · simp [hj]
  refine { h with
    ring := ?_
    room := ?_
    order := ?_
    unread := fun k hk => ?_
    counted := fun k hk hk' => ?_
    others := fun j hj hno => ?_
    link := fun k => (hsame _).2.2.1.trans (h.link k)
    size := fun j => (hsame j).2.2.2.trans (h.size j)
    next := ?_
    here := trivial }
  · show Ring.Holds _ _ s.stored ((s.returned ++ [frame]).length + 0)
    rw [hlen]
    exact hring.congr fun k _ _ => (hsame _).1
  · show s.stored.length ≤ (s.returned ++ [frame]).length + _
    have := h.room
    omega
  · show s.returned ++ [frame] = s.stored.take (s.returned ++ [frame]).length
    rw [hlen, List.take_add_one, hf, Option.toList_some, ← h.order]
  · obtain ⟨hk1, hk2⟩ : (s.returned ++ [frame]).length ≤ k ∧ k < s.stored.length := hk
    show (update s.rfa i _ _).Stored
    rw [update_of_ne (hne k (by omega) hk2)]
    exact h.unread k ⟨by omega, hk2⟩
  · show (update s.rfa i _ _).Counted
    rw [Rfd.Counted, (hsame _).2.1]
    exact hcounted k (show s.returned.length + 1 ≤ k from hlen ▸ hk) hk'
  · show (update s.rfa i _ j).status = _
    by_cases hji : j = i
    · subst hji
      rw [update_self]
    · rw [update_of_ne hji]
      refine h.others j hj fun k hk he => ?_
      rcases Nat.eq_or_lt_of_le hk.1 with heq | hlt'
      · exact hji (by rw [← he, ← heq, hi])
      · exact hno k ⟨by show (s.returned ++ [frame]).length ≤ k; omega, hk.2⟩ he
  · show nextRx i = (s.returned ++ [frame]).length % _
    rw [hlen, Ring.succ_mod _ (by decide), ← hi]
    rfl

theorem cpu (h : Inv s) : Inv (cpu s) := by
  have hat := h.here
  have hring := h.ring
  have hcounted := h.counted
  unfold Rx.cpu
  unfold At at hat
  cases hpc : s.pc <;> simp only [hpc] at hat hring hcounted ⊢
  case copy i =>
    obtain ⟨hi, hlt⟩ := hat
    refine { h with ring := hring.drop hlt, counted := fun k hk hk' => hcounted k (Nat.le_of_succ_le hk) hk',
                    here := ⟨hi, ?_⟩ }
    rw [hi]
    exact hring.get hlt
  case clearCount i frame => exact h.clearCount hpc
  case clearStatus i frame => exact h.clearStatus hpc
  case poll len =>
    split
    · exact h
    · next hs => exact h.move (by rw [hpc]; rfl) (by simpa [At] using hs)
  case status len =>
    have hheld : s.pc.held = 0 := by rw [hpc]; rfl
    split
    · next hru => exact h.move hheld.symm ⟨hat, hru⟩
    · next hru => exact h.move hheld.symm ⟨hat, hru⟩
    · exact h.move hheld.symm trivial
  case pointer len =>
    refine { h with ring := hring, counted := hcounted, here := ⟨hat.1, hat.2, rfl⟩, starting := fun hs => ?_ }
    cases hat.1.symm.trans hs
  case start len =>
    refine { h with ring := hring, counted := hcounted, here := trivial, starting := fun _ => hat.2,
                    resuming := fun hr => ?_ }
    exact absurd hr (by simp [Sys.finish])
  case resume len =>
    refine { h with ring := hring, counted := hcounted, here := trivial, resuming := fun _ => hat.2,
                    starting := fun hr => ?_ }
    exact absurd hr (by simp [Sys.finish])
  case ready | panic => exact h

theorem accept (h : Inv s) : Inv (accept s) := by
  have hat := h.here
  -- the driver looks at the unit only when no command waits
  have hhere : s.scb ≠ none → ∀ pos, At { s with scb := none, ru := .receiving, pos := pos } := by
    intro hs pos
    unfold At at hat ⊢
    cases hpc : s.pc <;> simp only [hpc] at hat ⊢
    case pointer | start | resume => exact absurd hat.1 hs
    all_goals exact hat
  unfold Rx.accept
  split
  · exact h
  · next hs =>
    obtain ⟨hru, hgp⟩ := h.starting hs
    refine { h with pos := fun _ => ?_, idle := nofun, starting := nofun, resuming := nofun,
                    here := hhere (by simp [hs]) s.gp }
    rw [hgp, h.idle hru]
    rfl
  · next hs =>
    have hru := h.resuming hs
    exact { h with pos := fun _ => h.pos (by rw [hru]; decide), idle := nofun, starting := nofun,
                   resuming := nofun, here := hhere (by simp [hs]) s.pos }

/-- A receiving unit has no command waiting. -/
theorem receiving (h : Inv s) (hr : s.ru = .receiving) : s.scb = none := by
  cases hs : s.scb with
  | none => rfl
  | some c =>
    cases c with
    | start => cases (h.starting hs).1.symm.trans hr
    | resume => cases (h.resuming hs).symm.trans hr

end Inv

theorem Rfd.fill_frame (d : Rfd) (buf : Block) {len : ℕ} (hlen : len ≤ ETH_PKTSZ_MAX) :
    (d.fill buf len).frame = bytes buf len := by
  have : (d.fill buf len).len = len := (count_word len hlen).2
  rw [Rfd.frame, this]
  exact bytes_write _ _ _

theorem Rfd.fill_stored {d : Rfd} (h : d.status = RFD_SW_NULL) (buf : Block) (len : ℕ) :
    (d.fill buf len).Stored := by
  simp only [Rfd.Stored, Rfd.fill, h]
  decide

/-- A frame is stored only while a descriptor is read. -/
def Room : Ev → Sys → Prop
  | .frame .., s => s.ru = .receiving → s.stored.length < s.returned.length + E100_RFA_SIZE
  | _, _ => True

instance (e : Ev) (s : Sys) : Decidable (Room e s) :=
  match e with
  | .frame .. => inferInstanceAs (Decidable (_ → _))
  | .call _ | .cpu | .accept => .isTrue trivial

/-- A frame that is stored, with room for it. -/
theorem Inv.store (h : Inv s) (hru : s.ru = .receiving)
    (hroom : s.stored.length < s.returned.length + E100_RFA_SIZE) (buf : Block) {len : ℕ}
    (hlen : len ≤ ETH_PKTSZ_MAX) {ru : Ru} (hru' : ru ≠ .idle) :
    Inv { s.setRfd (s.stored.length % E100_RFA_SIZE) ((s.rfa (s.stored.length % E100_RFA_SIZE)).fill buf len) with
      arrived := s.arrived ++ [bytes buf len]
      stored := s.stored ++ [bytes buf len]
      pos := (s.stored.length + 1) % E100_RFA_SIZE
      ru := ru } := by
  have hscb := h.receiving hru
  have hle := h.ring.le
  set n := s.stored.length with hn
  set f := bytes buf len with hf
  set d' := (s.rfa (n % E100_RFA_SIZE)).fill buf len with hd'
  have hlen' : (s.stored ++ [f]).length = n + 1 := by simp [hn]
  have hne : ∀ k, s.returned.length ≤ k → k < n → k % E100_RFA_SIZE ≠ n % E100_RFA_SIZE := by
    intro k hk hk' he
    have := Ring.slot_inj (a := s.returned.length) hk (by omega) (by omega) (by omega) he
    omega
  have hnull := h.others _ (Nat.mod_lt n (by decide)) fun k hk => hne k hk.1 hk.2
  have hsame : ∀ j, let d := update s.rfa (n % E100_RFA_SIZE) d' j
      d.link = (s.rfa j).link ∧ d.size = (s.rfa j).size := by
    intro j
    by_cases hj : j = n % E100_RFA_SIZE
    · subst hj
      simp [hd', Rfd.fill]
    · simp [hj]
  have hold : ∀ k, s.returned.length ≤ k → k < n →
      update s.rfa (n % E100_RFA_SIZE) d' (k % E100_RFA_SIZE) = s.rfa (k % E100_RFA_SIZE) :=
    fun k hk hk' => update_of_ne (hne k hk hk') _ _
  have hheld : n < s.returned.length + s.pc.held + E100_RFA_SIZE := by omega
  refine { h with
    ring := ?_
    room := by show (s.stored ++ [f]).length ≤ s.returned.length + E100_RFA_SIZE; omega
    order := ?_
    unread := fun k hk => ?_
    counted := fun k hk hk' => ?_
    others := fun j hj hno => ?_
    link := fun k => (hsame _).1.trans (h.link k)
    size := fun j => (hsame j).2.trans (h.size j)
    pos := fun _ => by show (n + 1) % _ = (s.stored ++ [f]).length % _; rw [hlen']
    idle := fun he => absurd he hru'
    starting := fun hs => nomatch (hscb.symm.trans hs)
    resuming := fun hs => nomatch (hscb.symm.trans hs)
    arrived := h.arrived.append (List.Sublist.refl _)
    short := ?_
    here := ?_ }
  · refine Ring.Holds.add (h.ring.congr fun k hk hk' => ?_) hheld ?_
    · show (update s.rfa _ d' _).frame = _
      rw [hold k (Nat.le_of_add_right_le hk) hk']
    · show (update s.rfa _ d' _).frame = _
      rw [update_self]
      exact Rfd.fill_frame _ buf hlen
  · show s.returned = (s.stored ++ [f]).take s.returned.length
    rw [List.take_append_of_le_length (by omega)]
    exact h.order
  · obtain ⟨hk1, hk2⟩ : s.returned.length ≤ k ∧ k < (s.stored ++ [f]).length := hk
    show (update s.rfa _ d' _).Stored
    rcases Nat.lt_or_ge k n with hlt | hge
    · rw [hold k hk1 hlt]
      exact h.unread k ⟨hk1, hlt⟩
    · obtain rfl : k = n := by omega
      rw [update_self]
      exact Rfd.fill_stored hnull buf len
  · replace hk' : k < (s.stored ++ [f]).length := hk'
    show (update s.rfa _ d' _).Counted
    rcases Nat.lt_or_ge k n with hlt | hge
    · rw [hold k (Nat.le_of_add_right_le hk) hlt]
      exact h.counted k hk hlt
    · obtain rfl : k = n := by omega
      rw [update_self]
      exact (count_word len hlen).1
  · have hjn : j ≠ n % E100_RFA_SIZE := fun he =>
      hno n ⟨Nat.le_of_add_right_le hle, by show n < (s.stored ++ [f]).length; omega⟩ he.symm
    show (update s.rfa _ d' j).status = _
    rw [update_of_ne hjn]
    exact h.others j hj fun k hk =>
      hno k ⟨hk.1, by have := hk.2; show k < (s.stored ++ [f]).length; omega⟩
  · intro g hg
    rcases List.mem_append.mp hg with hg | hg
    · exact h.short g hg
    · rw [List.mem_singleton.mp hg]
      simpa [hf, bytes] using hlen
  · have hat := h.here
    unfold At at hat ⊢
    cases hpc : s.pc <;> simp only [hpc, Sys.setRfd] at hat ⊢
    case copy => exact ⟨hat.1, by omega⟩
    case clearCount | clearStatus =>
      refine ⟨hat.1, ?_⟩
      rw [List.getElem?_append_left (List.getElem?_eq_some_iff.mp hat.2).1]
      exact hat.2
    case status => exact hat
    case pointer => cases hat.2.symm.trans hru
    case start => cases hat.2.1.symm.trans hru
    case resume => cases hat.2.symm.trans hru

theorem Inv.frame (h : Inv s) (buf : Block) (len : ℕ) (hC : Room (.frame buf len) s) :
    Inv (frame buf len s) := by
  unfold Rx.frame
  by_cases hc : s.ru = .receiving ∧ len ≤ (s.rfa s.pos).size.toNat
  · simp only [if_pos hc]
    obtain ⟨hru, hlen⟩ := hc
    have hpos := h.pos (by rw [hru]; decide)
    rw [h.size] at hlen
    simp only [hpos, h.link]
    refine h.store hru (hC hru) buf hlen ?_
    split <;> decide
  · simp only [if_neg hc]
    exact { h with arrived := h.arrived.trans (List.sublist_append_left _ _) }

theorem Inv.step (h : Inv s) (e : Ev) (hC : Room e s) : Inv (step e s) := by
  cases e with
  | frame buf len => exact h.frame buf len hC
  | call len => exact h.call len
  | cpu => exact h.cpu
  | accept => exact h.accept

theorem Inv.init : Inv init where
  ring := Ring.Holds.empty _ _
  room := Nat.zero_le _
  order := rfl
  unread k hk := absurd hk.2 (Nat.not_lt_zero k)
  counted k _ hk := absurd hk (Nat.not_lt_zero k)
  others _ _ _ := rfl
  link k := (Ring.succ_mod k (by decide)).symm
  size _ := rfl
  next := rfl
  pos h := absurd rfl h
  idle _ := rfl
  starting _ := ⟨rfl, rfl⟩
  resuming := nofun
  arrived := List.Sublist.refl _
  short := nofun
  here := trivial

/-! ### Order and loss -/

/-- The frames returned and stored so far. -/
structure Kept (s : Sys) : Prop where
  /-- What was returned are the first of the stored frames, each once. -/
  order : s.returned <+: s.stored
  /-- Stored frames are frames that arrived, in order of arrival. -/
  arrived : s.stored.Sublist s.arrived
  /-- A stored frame is in its descriptor until it is returned. -/
  intact : s.pc = .ready → ∀ k, s.returned.length ≤ k → k < s.stored.length →
    (s.rfa (k % E100_RFA_SIZE)).Stored ∧ s.stored[k]? = some (s.rfa (k % E100_RFA_SIZE)).frame
  /-- And the next call returns the first of those. -/
  next : s.pc = .ready → s.returned.length < s.stored.length →
    (exec step [.call ETH_PKTSZ_MAX, .cpu, .cpu, .cpu] s).returned = s.stored.take (s.returned.length + 1)

/-- A call takes out the first unread frame. -/
theorem Inv.next_returned (h : Inv s) (hpc : s.pc = .ready) (hlt : s.returned.length < s.stored.length) :
    (exec Rx.step [.call ETH_PKTSZ_MAX, .cpu, .cpu, .cpu] s).returned = s.stored.take (s.returned.length + 1) := by
  have hring := h.ring
  rw [hpc] at hring
  have hcall : Rx.call ETH_PKTSZ_MAX s = { s with pc := .copy (nextRx s.lastRxId) } := by
    simp only [Rx.call, hpc, sysNetRxPkt, gt_iff_lt, lt_irrefl, if_false]
    rcases h.e100RxPkt_cases hpc ETH_PKTSZ_MAX with ⟨_, he | ⟨hl, _⟩⟩ | ⟨he, _⟩
    · exact he
    · exact absurd (h.len_next hpc hlt) (Nat.not_le_of_lt hl)
    · omega
  have hfront : s.stored.take (s.returned.length + 1) =
      s.stored.take s.returned.length ++ [(s.rfa (s.returned.length % E100_RFA_SIZE)).frame] := hring.front hlt
  simp only [exec, Rx.step, hcall, Rx.cpu]
  rw [hfront, ← h.order, h.next]
  rfl

theorem Inv.kept (h : Inv s) : Kept s where
  order := h.order ▸ List.take_prefix _ _
  arrived := h.arrived
  intact hpc k hk hk' :=
    ⟨h.unread k ⟨hk, hk'⟩, h.ring.entry k (by rw [hpc]; exact hk) hk'⟩
  next := h.next_returned

/-- **No stored frame is lost or reordered**, if none is stored while all descriptors are unread. -/
theorem kept_of_run (es : List Ev) (h : Throughout step Room es init) : Kept (exec step es init) :=
  (exec_invariant_of (fun e _ hs hC => hs.step e hC) es Inv.init h).kept

/-- Frames of one to `n` bytes. -/
def frames (n : ℕ) : List Ev := (List.range n).map fun k => .frame (fun _ => 0) (k + 1)

/-- A call that returns a frame and resumes the unit. -/
def receive : List Ev := .call ETH_PKTSZ_MAX :: List.replicate 6 .cpu

/-- All descriptors filled, all read, then one more frame. -/
theorem kept_of_run_round :
    let es := .accept :: frames E100_RFA_SIZE ++ receive ++ .accept ::
      (List.replicate (E100_RFA_SIZE - 1) receive).flatten ++ frames 1
    Throughout step Room es init ∧ Kept (exec step es init) := by
  intro es
  have h : Throughout step Room es init := by decide +kernel
  exact ⟨h, kept_of_run es h⟩

/-- The ring is filled, one frame is read, the unit resumes, and two more frames arrive. -/
def overrun : List Ev :=
  .accept :: frames E100_RFA_SIZE ++ receive ++ [.accept, .frame (fun _ => 0) 100, .frame (fun _ => 0) 101]

/-- The second frame, of two bytes, is gone: its descriptor has the last one, of 101 bytes, and that is
what the next call returns. -/
theorem overwritten :
    let s := exec step overrun init
    s.pc = .ready ∧ s.returned.length = 1 ∧ s.stored[1]? = some [0, 0] ∧ (s.rfa 1).frame.length = 101 ∧
      ((exec step receive s).returned[1]?.map List.length) = some 101 ∧
      ¬ (exec step receive s).returned <+: (exec step receive s).stored := by
  decide +kernel

end Rx
end Net
end Jos
