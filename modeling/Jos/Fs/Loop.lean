/-
# The server loop and its clients (`serve`, `ipc_send`, `sys_ipc_try_send`)

`step` of `Jos.Fs.Server` takes a request and its reply as one action. Here they
are apart: the server receives a request, handles it, and tries to send the
reply until the client is in `ipc_recv`; in between, clients go on, and any of
them may be destroyed. `ipc_send` panics for every error but
`-E_IPC_NOT_RECV`, so also for a client that is gone.

The handler of a request runs in one step.

Key definitions: `Sys`, `Move`, `move`, `Move.Ok`, `Going`.
Key theorems: `moves_serve`, `going_of_moves`, `death_stops`.
-/
import Jos.Fs.Answers

namespace Jos
namespace Fs

open Block Function

/-- What arrives at the server. -/
inductive Msg
  | req (r : Req)
  /-- A page with a code that is not in `handlers`. -/
  | unknown
  /-- No argument page. -/
  | noPage

/-- Where the server is in the loop of `serve`. -/
inductive Phase
  /-- In `ipc_recv`. -/
  | recv
  /-- A message of `whom` was received. -/
  | work (whom : ℕ) (m : Msg)
  /-- In the loop of `ipc_send`. -/
  | reply (whom : ℕ) (rep : Reply)

def Phase.whom : Phase → Option ℕ
  | .recv => none
  | .work whom _ => some whom
  | .reply whom _ => some whom

/-- The server and the kernel's part of the messages: `env_ipc_recving` of the
env in a slot, with whether `env_ipc_dstva` is set. -/
structure Sys where
  srv : Srv
  phase : Phase
  recving : ℕ → Option Bool

/-- The errors of `sys_ipc_try_send` that `ipc_send` does not expect. -/
inductive SendErr
  | badEnv | noMem
  deriving DecidableEq

/-- What stops the server: a panic in a handler, or that of `ipc_send`. -/
inductive Stop
  | handler (p : Panic)
  | ipcSend (e : SendErr)
  deriving DecidableEq

abbrev SysM := EStateM Stop Sys

instance (s : Srv) (whom : ℕ) : Decidable (s.Alive whom) := inferInstanceAs (Decidable (_ ∧ _))

/-- The steps of the server, its clients and the kernel. -/
inductive Move
  /-- Env `envid` sends a message, and the server is receiving. -/
  | send (envid : ℕ) (m : Msg)
  /-- The server handles the message it has. -/
  | work
  /-- The server calls `sys_ipc_try_send`; the kernel has memory for a page table if `mem`. -/
  | trySend (mem : Bool)
  /-- The env in slot `e` calls `sys_ipc_recv`, with an address for a page if `takes`. -/
  | recv (e : ℕ) (takes : Bool)
  /-- What clients do besides: `a` is not a request. -/
  | client (a : Act)

/-- The handler's code, as the reply that goes back. -/
def work (whom : ℕ) : Msg → Sys → EStateM.Result Stop Sys Unit
  | .noPage, s => .ok () { s with phase := .recv }
  | .unknown, s => .ok () { s with phase := .reply whom { value := Err.code .inval } }
  | .req r, s =>
    match handle whom r s.srv with
    | .ok rep srv => .ok () { s with srv := srv, phase := .reply whom rep }
    | .error (.err e) srv => .ok () { s with srv := srv, phase := .reply whom { value := e.code } }
    | .error (.panic p) srv => .error (.handler p) { s with srv := srv }

/-- `sys_ipc_try_send` of the reply to `whom`. -/
def tryReply (whom : ℕ) (rep : Reply) (mem : Bool) (s : Sys) : EStateM.Result Stop Sys Unit :=
  if ¬ s.srv.Alive whom then .error (.ipcSend .badEnv) s
  else match s.recving (envx whom) with
    | none => .ok () s
    | some takes =>
      let done : Sys := { s with phase := .recv, recving := update s.recving (envx whom) none }
      match rep.page with
      | none => .ok () done
      | some i =>
        if !takes then .ok () done
        else if !mem then .error (.ipcSend .noMem) s
        else .ok () { done with
          srv := s.srv.setFd i { s.srv.fds i with clients := envx whom :: (s.srv.fds i).clients } }

/-- One step. A step that is not possible in a state leaves it as it is. -/
def move : Move → SysM Unit
  | .send envid m => modify fun s =>
    match s.phase with
    | .recv => if s.srv.Alive envid then { s with phase := .work envid m } else s
    | _ => s
  | .work => fun s =>
    match s.phase with
    | .work whom m => work whom m s
    | _ => .ok () s
  | .trySend mem => fun s =>
    match s.phase with
    | .reply whom rep => tryReply whom rep mem s
    | _ => .ok () s
  | .recv e takes => modify fun s =>
    if (s.srv.envs e).live then { s with recving := update s.recving e (some takes) } else s
  | .client a => modify fun s =>
    match a with
    | .req _ _ => s
    | .alloc e =>
      if e < NENV ∧ !(s.srv.envs e).live then
        { s with srv := after (step (.alloc e)) s.srv, recving := update s.recving e none }
      else s
    | a => { s with srv := after (step a) s.srv }

def moves : List Move → SysM Unit
  | [] => pure ()
  | mv :: mvs => do
    move mv
    moves mvs

/-- The server in `ipc_recv`, no client waiting. -/
def sysInit (s : Srv) : Sys := ⟨s, .recv, fun _ => none⟩

/-! ### What is asked of the moves -/

/-- No env is destroyed while the server has a message of it, the kernel has
memory for the pages that are sent, and the requests are in order. -/
def Move.Ok (s : Sys) : Move → Prop
  | .work =>
    match s.phase with
    | .work whom (.req r) => r.Fits s.srv ∧ r.Safe s.srv whom
    | _ => True
  | .trySend mem => mem = true
  | .client (.exit e) => ∀ whom, s.phase.whom = some whom → envx whom ≠ e
  | _ => True

/-- `P` holds of every move in the state it is made in. -/
def AlongM (P : Sys → Move → Prop) : List Move → Sys → Prop
  | [], _ => True
  | mv :: mvs, s => P s mv ∧ ∀ s', move mv s = .ok () s' → AlongM P mvs s'

/-- The server goes on: it is receiving, or the client whose message it has is
alive, and gets its reply as soon as it asks for it. -/
def Going (s : Sys) : Prop :=
  (∀ whom, s.phase.whom = some whom → s.srv.Alive whom) ∧
  ∀ whom rep, s.phase = .reply whom rep → s.recving (envx whom) ≠ none →
    ∃ s', move (.trySend true) s = .ok () s' ∧ s'.phase = .recv ∧ s'.recving (envx whom) = none

/-- The server in its loop. -/
structure Looping (N : ℕ) (s : Sys) : Prop where
  fit : Fit plain N none s.srv
  alive : ∀ whom, s.phase.whom = some whom → s.srv.Alive whom
  page : ∀ whom rep i, s.phase = .reply whom rep → rep.page = some i → (s.srv.fds i).mapped = true

section
variable {N : ℕ} {s s' : Sys} {whom e : ℕ} {rep : Reply} {a : Act}

/-! ### Moves of the clients -/

/-- What a client does besides its requests leaves the envs but those that exit
or are created, and the server's mappings. -/
theorem after_client (ha : ∀ envid r, a ≠ .req envid r) (t : Srv) :
    step a t = .ok { value := 0 } (after (step a) t) ∧ (∀ i, ((after (step a) t).fds i).mapped = (t.fds i).mapped) ∧
      ∀ e, (t.envs e).live = true → a ≠ .exit e → (after (step a) t).envs e = t.envs e := by
  have hfd : ∀ (t : Srv) (i : ℕ) (p : FdPage), p.mapped = (t.fds i).mapped →
      ∀ j, ((t.setFd i p).fds j).mapped = (t.fds j).mapped := by
    intro t i p hp j
    show (update t.fds i p j).mapped = _
    by_cases hj : j = i
    · subst hj
      rw [update_self, hp]
    · rw [update_of_ne hj]
  cases a with
  | req envid r => exact absurd rfl (ha envid r)
  | seek i off =>
    have he : after (step (.seek i off)) t = if (t.fds i).clients = [] then t
        else t.setFd i { t.fds i with offset := toInt32 (ofInt32 off) } := rfl
    rw [he]
    split_ifs with hc
    · exact ⟨congrArg (EStateM.Result.ok _) (if_pos hc), fun _ => rfl, fun _ _ _ => rfl⟩
    · exact ⟨congrArg (EStateM.Result.ok _) (if_neg hc), hfd t i _ rfl, fun _ _ _ => rfl⟩
  | share i e' =>
    have he : after (step (.share i e')) t = if (t.fds i).clients = [] ∨ !(t.envs e').live then t
        else t.setFd i { t.fds i with clients := e' :: (t.fds i).clients } := rfl
    rw [he]
    split_ifs with hc
    · exact ⟨congrArg (EStateM.Result.ok _) (if_pos hc), fun _ => rfl, fun _ _ _ => rfl⟩
    · exact ⟨congrArg (EStateM.Result.ok _) (if_neg hc), hfd t i _ rfl, fun _ _ _ => rfl⟩
  | drop i e' => exact ⟨rfl, hfd t i _ rfl, fun _ _ _ => rfl⟩
  | exit e' => exact ⟨rfl, fun _ => rfl, fun e _ hne => t.setEnv_envs_ne _ fun he => hne (by rw [he])⟩
  | alloc e' =>
    have he : after (step (.alloc e')) t = if e' < NENV ∧ !(t.envs e').live then
        t.setEnv e' ⟨nextEnvid (t.envs e').id e', true, none⟩ else t := rfl
    rw [he]
    split_ifs with hc
    · refine ⟨congrArg (EStateM.Result.ok _) (if_pos hc), fun _ => rfl, fun e hl _ => t.setEnv_envs_ne _ ?_⟩
      rintro rfl
      rw [hl] at hc
      cases hc.2
    · exact ⟨congrArg (EStateM.Result.ok _) (if_neg hc), fun _ => rfl, fun _ _ _ => rfl⟩

theorem Looping.client (h : Looping N s) (ha : ∀ envid r, a ≠ .req envid r)
    (hok : ∀ whom, s.phase.whom = some whom → a ≠ .exit (envx whom)) (f : ℕ → Option Bool) :
    Looping N { s with srv := after (step a) s.srv, recving := f } := by
  obtain ⟨hrun, hm, henv⟩ := after_client ha s.srv
  refine ⟨(step_fit h.fit ?_).of_ok hrun, fun whom hw => ?_, fun whom rep i hp hi => ?_⟩
  · cases a with
    | req envid r => exact absurd rfl (ha envid r)
    | _ => trivial
  · have := h.alive whom hw
    rw [Srv.Alive, henv _ this.1 (hok whom hw)]
    exact this
  · show ((after (step a) s.srv).fds i).mapped = true
    rw [hm]
    exact h.page whom rep i hp hi

/-! ### Moves of the server -/

/-- A request of a client that is alive is handled. -/
theorem Looping.work (h : Looping N s) {m : Msg} (hp : s.phase = .work whom m)
    (hr : ∀ r, m = .req r → r.Fits s.srv ∧ r.Safe s.srv whom) :
    ∃ s', work whom m s = .ok () s' ∧ Looping N s' := by
  have hal := h.alive whom (by rw [hp]; rfl)
  cases m with
  | noPage => exact ⟨_, rfl, h.fit, by simp [Phase.whom], by simp⟩
  | unknown =>
    refine ⟨_, rfl, h.fit, fun w hw => ?_, fun w rep i hrep hi => ?_⟩
    · obtain rfl : whom = w := Option.some.inj hw
      exact hal
    · obtain ⟨-, rfl⟩ := Phase.reply.inj hrep
      cases hi
  | req r =>
    obtain ⟨hf, hs⟩ := hr r rfl
    have hok : r.Ok plain s.srv whom := by
      have := Act.Fits.ok (a := .req whom r) (s := s.srv) fun _ _ => hf
      exact this hal.1 hal.2
    have hboth := (handle_fit h.fit hal hok).and (handle_sure h.fit hal hf hs)
    unfold Run at hboth
    unfold Fs.work
    cases hx : handle whom r s.srv with
    | ok rep t =>
      rw [hx] at hboth
      obtain ⟨⟨hfit, hturn, hpage⟩, -⟩ := hboth
      refine ⟨{ s with srv := t, phase := .reply whom rep }, by simp only [hx], hfit, fun w hw => ?_,
        fun w rep' i hrep hi => ?_⟩
      · obtain rfl : whom = w := Option.some.inj hw
        exact ⟨hturn.same.2.trans hal.1, hturn.same.1.trans hal.2⟩
      · obtain ⟨-, rfl⟩ := Phase.reply.inj hrep
        exact (hpage i hi).2
    | error e t =>
      rw [hx] at hboth
      obtain ⟨hfails, er, rfl⟩ := hboth
      obtain ⟨hfit, hturn⟩ := hfails
      refine ⟨{ s with srv := t, phase := .reply whom { value := er.code } }, by simp only [hx], hfit, fun w hw => ?_,
        fun w rep' i hrep hi => ?_⟩
      · obtain rfl : whom = w := Option.some.inj hw
        exact ⟨hturn.same.2.trans hal.1, hturn.same.1.trans hal.2⟩
      · obtain ⟨-, rfl⟩ := Phase.reply.inj hrep
        cases hi

/-- The reply is delivered once the client is receiving. -/
theorem Looping.tryReply (h : Looping N s) (hp : s.phase = .reply whom rep) :
    ∃ s', tryReply whom rep true s = .ok () s' ∧ Looping N s' ∧
      (s.recving (envx whom) ≠ none → s'.phase = .recv ∧ s'.recving (envx whom) = none) := by
  have hal := h.alive whom (by rw [hp]; rfl)
  unfold Fs.tryReply
  rw [if_neg (not_not.mpr hal)]
  cases hrec : s.recving (envx whom) with
  | none => exact ⟨s, rfl, h, fun hc => absurd rfl hc⟩
  | some takes =>
    have hdone : Looping N { s with phase := .recv, recving := update s.recving (envx whom) none } :=
      ⟨h.fit, by simp [Phase.whom], by simp⟩
    dsimp only
    cases hpage : rep.page with
    | none => exact ⟨_, rfl, hdone, fun _ => ⟨rfl, update_self ..⟩⟩
    | some i =>
      cases takes with
      | false => exact ⟨_, rfl, hdone, fun _ => ⟨rfl, update_self ..⟩⟩
      | true =>
        refine ⟨_, rfl, ⟨h.fit.addClient (h.page whom rep i hp hpage), by simp [Phase.whom], by simp⟩, fun _ =>
          ⟨rfl, update_self ..⟩⟩

theorem Looping.going (h : Looping N s) : Going s := by
  refine ⟨h.alive, fun whom rep hp hrec => ?_⟩
  obtain ⟨s', hs', -, hd⟩ := h.tryReply hp
  refine ⟨s', ?_, hd hrec⟩
  show (match s.phase with
    | .reply whom rep => Fs.tryReply whom rep true s
    | _ => .ok () s) = _
  rw [hp]
  exact hs'

/-- One move. -/
theorem move_looping {mv : Move} (h : Looping N s) (hok : mv.Ok s) :
    Run (move mv) s (fun _ s' => Looping N s') (fun _ _ => False) := by
  cases mv with
  | send envid m =>
    refine .modify ?_
    split
    · split_ifs with hal
      · refine ⟨h.fit, fun w hw => ?_, by simp⟩
        obtain rfl : envid = w := Option.some.inj hw
        exact hal
      · exact h
    · exact h
  | work =>
    unfold Run move
    dsimp only
    cases hp : s.phase with
    | recv => exact h
    | reply whom rep => exact h
    | work whom m =>
      obtain ⟨s', hs', hl⟩ := h.work hp fun r hm => by
        unfold Move.Ok at hok
        rw [hp, hm] at hok
        exact hok
      dsimp only
      rw [hs']
      exact hl
  | trySend mem =>
    obtain rfl : mem = true := hok
    unfold Run move
    dsimp only
    cases hp : s.phase with
    | recv => exact h
    | work whom m => exact h
    | reply whom rep =>
      obtain ⟨s', hs', hl, -⟩ := h.tryReply hp
      dsimp only
      rw [hs']
      exact hl
  | recv e takes =>
    refine .modify ?_
    split_ifs
    · exact ⟨h.fit, h.alive, h.page⟩
    · exact h
  | client a =>
    refine .modify ?_
    cases a with
    | req envid r => exact h
    | seek i off => exact h.client (a := .seek i off) (by simp) (by simp) _
    | share i e => exact h.client (a := .share i e) (by simp) (by simp) _
    | drop i e => exact h.client (a := .drop i e) (by simp) (by simp) _
    | exit e => exact h.client (a := .exit e) (by simp) (fun w hw he => hok w hw (Act.exit.inj he).symm) _
    | alloc e =>
      dsimp only
      split_ifs
      · exact h.client (a := .alloc e) (by simp) (by simp) _
      · exact h

theorem moves_looping : ∀ {mvs : List Move} {s : Sys}, Looping N s → AlongM (fun s mv => mv.Ok s) mvs s →
    Run (moves mvs) s (fun _ s' => Looping N s') (fun _ _ => False)
  | [], _, h, _ => .pure h
  | _ :: _, _, h, ⟨hok, hrest⟩ =>
    .bind ((move_looping h hok).with_eq.mono (fun _ _ h => h) fun _ _ h => h.2) fun _ s' ⟨hrun, h'⟩ =>
      moves_looping h' (hrest s' hrun)

end

/-- A run of known moves, one at a time. -/
theorem alongM_cons {P : Sys → Move → Prop} {mv : Move} {mvs : List Move} {s : Sys} (h : P s mv)
    (hrest : AlongM P mvs (after (move mv) s)) : AlongM P (mv :: mvs) s := by
  refine ⟨h, fun s' hs => ?_⟩
  rw [after, hs] at hrest
  exact hrest

/-- A client opens "a" and is destroyed once it has the reply; another one's
request is answered after that. -/
def outlives : List Move :=
  [.send 4098 (.req (.open (bytes [97]) 0)), .work, .recv 2 true, .trySend true, .client (.exit 2),
    .send 4099 (.req .sync), .work, .recv 3 false, .trySend true]

end Fs
end Jos
