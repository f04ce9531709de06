import SysProg.Booking.Indices

/-!
# SysProg.Booking.Loop

The loop of `main`: `poll`, `accept`, and the pass over the slots. `Inter` lets a process serve any
open connection at any time; here it serves those that `poll` has reported, in the order of the slots.

* `Front`: where a process is in its loop, what waits on its sockets, and its array `client`. An entry
  of `client` is set when a connection is accepted and never taken back; `poll` reports a closed one
  as `POLLNVAL`, which wakes the loop and is not served.
* `Loop.step`: the loop, with the steps of `Inter` in it. Clients connect and send at any time. An
  `accept` may fail (`continue`); one that ends the process is left out.
* `loop_waits_only_in_poll`: no `read` of the loop ever waits.
* `pass_serves`: a pass serves the connections that were readable at its `poll`, each once, in order.
-/

set_option linter.unusedSectionVars false

namespace SysProg.Booking

inductive Pc where
  | poll
  | accept
  /-- The `for` loop is at this slot. -/
  | scan (i : Nat)
  deriving DecidableEq

structure Front where
  pc : Pc
  /-- Connections that wait for `accept`. -/
  backlog : Nat
  /-- What `read` will return on a connection, in order. -/
  inbox : Nat → List ReadResult
  /-- `client[fd].fd` is set. -/
  client : Nat → Bool
  /-- `client[fd].revents & POLLIN` -/
  revents : Nat → Bool

structure Loop (P : Type) extends Inter P where
  front : P → Front

inductive LoopEvent (P : Type) where
  | connect (p : P)
  | send (p : P) (fd : Nat) (r : ReadResult)
  | poll (p : P)
  | accept (p : P) (fd : Nat)
  | acceptFail (p : P)
  /-- The `for` loop looks at its slot, and starts `handle_read` if there is something to read. -/
  | scan (p : P)
  | call (p : P)
  deriving DecidableEq

def Server.isOpen (sv : Server) (fd : Nat) : Bool := decide ((sv.requestP fd).connFd ≠ -1)

/-- `poll` finds something to read on the connection. -/
def Front.readable (f : Front) (sv : Server) (fd : Nat) : Bool :=
  f.client fd && sv.isOpen fd && !(f.inbox fd).isEmpty

/-- `poll` reports something on the entry, be it that the descriptor is closed. -/
def Front.reported (f : Front) (sv : Server) (fd : Nat) : Bool :=
  f.client fd && (!sv.isOpen fd || !(f.inbox fd).isEmpty)

/-- `poll` returns: there is a connection to accept, or an entry to report. -/
def Front.ready (f : Front) (sv : Server) : Bool :=
  decide (0 < f.backlog) || (List.range MAXFD).any (f.reported sv)

def Front.polled (f : Front) (sv : Server) : Front :=
  { f with
    pc := if 0 < f.backlog then .accept else .scan (listenFd + 1)
    revents := f.readable sv }

def Front.accepted (f : Front) (fd : Nat) : Front :=
  { f with
    pc := .scan (listenFd + 1)
    backlog := f.backlog - 1
    inbox := fun j => if j = fd then [] else f.inbox j
    client := fun j => if j = fd then true else f.client j }

def Front.put (f : Front) (fd : Nat) (rs : List ReadResult) : Front :=
  { f with inbox := fun j => if j = fd then rs else f.inbox j }

section

variable {P : Type} [DecidableEq P] [Fintype P]

def Loop.setFront (s : Loop P) (p : P) (f : Front) : Loop P :=
  { s with front := fun q => if q = p then f else s.front q }

def Loop.setPc (s : Loop P) (p : P) (pc : Pc) : Loop P := s.setFront p { s.front p with pc := pc }

/-- Between two system calls of `main`: the process runs and is not inside `handle_read`. -/
def Loop.atMain (s : Loop P) (p : P) : Bool := (s.server p).alive && (s.running p).isNone

/-- `client[requestP[i].conn_fd].revents & POLLIN` -/
def Loop.pollin (s : Loop P) (p : P) (i : Nat) : Bool :=
  (s.front p).revents ((s.server p).requestP i).connFd.toNat

/-- The body of the `for` loop at slot `i`, up to the `read`. `none`: the `read` waits. -/
def Loop.scanAt (build : P → Build) (s : Loop P) (p : P) (i : Nat) : Option (Loop P) :=
  if i < MAXFD then
    if (s.server p).isOpen i && s.pollin p i then
      match (s.front p).inbox i with
      | [] => none
      | r :: rest => (s.toInter.step build (.recv p i r)).map fun w =>
          { s with toInter := w }.setFront p ((s.front p).put i rest)
    else some (s.setPc p (.scan (i + 1)))
  else some (s.setPc p .poll)

def Loop.step (build : P → Build) (s : Loop P) : LoopEvent P → Option (Loop P)
  | .connect p => some (s.setFront p { s.front p with backlog := (s.front p).backlog + 1 })
  | .send p fd r =>
    if (s.server p).isOpen fd then
      some (s.setFront p ((s.front p).put fd ((s.front p).inbox fd ++ [r])))
    else none
  | .poll p =>
    if s.atMain p && decide ((s.front p).pc = .poll) && (s.front p).ready (s.server p) then
      some (s.setFront p ((s.front p).polled (s.server p)))
    else none
  | .accept p fd =>
    if (s.front p).pc = .accept then
      (s.toInter.step build (.accept p fd)).map fun w =>
        { s with toInter := w }.setFront p ((s.front p).accepted fd)
    else none
  | .acceptFail p =>
    if s.atMain p && decide ((s.front p).pc = .accept) then some (s.setPc p .poll) else none
  | .scan p =>
    if s.atMain p then
      match (s.front p).pc with
      | .scan i => s.scanAt build p i
      | _ => none
    else none
  | .call p =>
    match (s.front p).pc with
    | .scan i => (s.toInter.step build (.call p)).map fun w =>
        if (w.running p).isNone then { s with toInter := w }.setPc p (.scan (i + 1))
        else { s with toInter := w }
    | _ => none

/-- Every process has just run `init_server` and filled its array `client`. -/
structure Loop.Init (s : Loop P) : Prop where
  init : s.toInter.Init
  pc : ∀ p, (s.front p).pc = .poll
  client : ∀ p fd, (s.front p).client fd = false

end

/-! ## Steps -/

section

variable {P : Type} [DecidableEq P] [Fintype P] {build : P → Build} {s s' : Loop P} {p q : P}

/-- What a step can do. -/
inductive LoopCase (build : P → Build) (s : Loop P) : LoopEvent P → Loop P → Prop where
  | connect {p : P} : LoopCase build s (.connect p)
      (s.setFront p { s.front p with backlog := (s.front p).backlog + 1 })
  | send {p : P} {fd : Nat} {r : ReadResult} : LoopCase build s (.send p fd r)
      (s.setFront p ((s.front p).put fd ((s.front p).inbox fd ++ [r])))
  | poll {p : P} : s.atMain p = true → (s.front p).pc = .poll →
      LoopCase build s (.poll p) (s.setFront p ((s.front p).polled (s.server p)))
  | accept {p : P} {fd : Nat} {w : Inter P} : (s.front p).pc = .accept →
      s.toInter.step build (.accept p fd) = some w →
      LoopCase build s (.accept p fd)
        ({ s with toInter := w }.setFront p ((s.front p).accepted fd))
  | acceptFail {p : P} : (s.front p).pc = .accept → LoopCase build s (.acceptFail p) (s.setPc p .poll)
  | skip {p : P} {i : Nat} : s.atMain p = true → (s.front p).pc = .scan i → i < MAXFD →
      ((s.server p).isOpen i && s.pollin p i) = false →
      LoopCase build s (.scan p) (s.setPc p (.scan (i + 1)))
  | passEnd {p : P} {i : Nat} : s.atMain p = true → (s.front p).pc = .scan i → MAXFD ≤ i →
      LoopCase build s (.scan p) (s.setPc p .poll)
  | serve {p : P} {i : Nat} {r : ReadResult} {rest : List ReadResult} {w : Inter P} :
      s.atMain p = true → (s.front p).pc = .scan i → i < MAXFD →
      (s.server p).isOpen i = true → s.pollin p i = true → (s.front p).inbox i = r :: rest →
      s.toInter.step build (.recv p i r) = some w →
      LoopCase build s (.scan p) ({ s with toInter := w }.setFront p ((s.front p).put i rest))
  | inside {p : P} {i : Nat} {w : Inter P} : (s.front p).pc = .scan i →
      s.toInter.step build (.call p) = some w → (w.running p).isNone = false →
      LoopCase build s (.call p) { s with toInter := w }
  | leave {p : P} {i : Nat} {w : Inter P} : (s.front p).pc = .scan i →
      s.toInter.step build (.call p) = some w → (w.running p).isNone = true →
      LoopCase build s (.call p) ({ s with toInter := w }.setPc p (.scan (i + 1)))

theorem scan_cases {i : Nat} (hm : s.atMain p = true) (hpc : (s.front p).pc = .scan i)
    (h : s.scanAt build p i = some s') : LoopCase build s (.scan p) s' := by
  unfold Loop.scanAt at h
  split at h
  · split at h
    · rename_i hboth
      rw [Bool.and_eq_true] at hboth
      split at h
      · cases h
      · rename_i r rest hin
        obtain ⟨w, hw, rfl⟩ := Option.map_eq_some_iff.1 h
        exact .serve hm hpc ‹_› hboth.1 hboth.2 hin hw
    · cases h
      exact .skip hm hpc ‹_› (Bool.eq_false_iff.2 ‹_›)
  · cases h
    exact .passEnd hm hpc (by omega)

theorem loop_cases {e : LoopEvent P} (h : s.step build e = some s') : LoopCase build s e s' := by
  cases e with
  | connect p => cases h; exact .connect
  | send p fd r =>
    simp only [Loop.step] at h
    split at h
    · cases h; exact .send
    · cases h
  | poll p =>
    simp only [Loop.step] at h
    split at h
    · rename_i hc
      simp only [Bool.and_eq_true, decide_eq_true_eq] at hc
      cases h
      exact .poll hc.1.1 hc.1.2
    · cases h
  | accept p fd =>
    simp only [Loop.step] at h
    split at h
    · obtain ⟨w, hw, rfl⟩ := Option.map_eq_some_iff.1 h
      exact .accept ‹_› hw
    · cases h
  | acceptFail p =>
    simp only [Loop.step] at h
    split at h
    · rename_i hc
      simp only [Bool.and_eq_true, decide_eq_true_eq] at hc
      cases h
      exact .acceptFail hc.2
    · cases h
  | scan p =>
    simp only [Loop.step] at h
    split at h
    · split at h
      · exact scan_cases ‹_› ‹_› h
      · cases h
    · cases h
  | call p =>
    simp only [Loop.step] at h
    split at h
    · obtain ⟨w, hw, rfl⟩ := Option.map_eq_some_iff.1 h
      split
      · exact .leave ‹_› hw ‹_›
      · exact .inside ‹_› hw (Bool.eq_false_iff.2 ‹_›)
    · cases h

/-- The loop takes steps of `Inter`, or leaves the servers as they are. -/
theorem loop_inter {e : LoopEvent P} (h : s.step build e = some s') :
    s'.toInter = s.toInter ∨ ∃ e', s.toInter.step build e' = some s'.toInter := by
  cases loop_cases h with
  | connect => exact .inl rfl
  | send => exact .inl rfl
  | poll => exact .inl rfl
  | accept _ hw => exact .inr ⟨_, hw⟩
  | acceptFail => exact .inl rfl
  | skip => exact .inl rfl
  | passEnd => exact .inl rfl
  | serve _ _ _ _ _ _ hw => exact .inr ⟨_, hw⟩
  | inside _ hw _ => exact .inr ⟨_, hw⟩
  | leave _ hw _ => exact .inr ⟨_, hw⟩

/-! ## The invariant of a process -/

/-- The slots that the pass has not come to yet. -/
def Front.Ahead (f : Front) (busy : Bool) (fd : Nat) : Prop :=
  match f.pc with
  | .poll => False
  | .accept => True
  | .scan i => if busy then i < fd else i ≤ fd

/-- `sv` is the server and `run` the call of `handle_read` that it is in. -/
structure Front.Ok (f : Front) (sv : Server) (run : Option (Nat × Sys Outcome)) : Prop where
  index : ∀ fd, sv.isOpen fd = true → (sv.requestP fd).connFd = fd
  client : ∀ fd, sv.isOpen fd = true → f.client fd = true
  range : ∀ i, f.pc = .scan i → listenFd < i ∧ i ≤ MAXFD
  serving : ∀ fd prog, run = some (fd, prog) → f.pc = .scan fd
  ahead : ∀ fd, f.Ahead run.isSome fd → f.revents fd = true →
    sv.isOpen fd = true ∧ f.inbox fd ≠ []

structure LoopInv (build : P → Build) (s : Loop P) : Prop where
  sound : ∀ p, Sound build s.toInter p
  ok : ∀ p, (s.front p).Ok (s.server p) (s.running p)

theorem isOpen_iff {sv : Server} {fd : Nat} : sv.isOpen fd = true ↔ (sv.requestP fd).connFd ≠ -1 := by
  simp [Server.isOpen]

theorem atMain_iff : s.atMain p = true ↔ (s.server p).alive = true ∧ s.running p = none := by
  simp [Loop.atMain]

theorem setFront_self {f : Front} : (s.setFront p f).front p = f := by simp [Loop.setFront]

@[simp] theorem setFront_toInter {f : Front} : (s.setFront p f).toInter = s.toInter := rfl

theorem setFront_of_ne {f : Front} (hq : q ≠ p) : (s.setFront p f).front q = s.front q := by
  simp [Loop.setFront, hq]

/-- A step of `Inter` changes only its own process. -/
theorem inter_other {i i' : Inter P} {e : InterEvent P} (h : i.step build e = some i')
    (hq : q ≠ e.process) : i'.server q = i.server q ∧ i'.running q = i.running q := by
  cases inter_cases h with
  | accept => exact ⟨setServer_of_ne hq, rfl⟩
  | recv => exact ⟨rfl, setRunning_of_ne hq⟩
  | finish => exact ⟨setServer_of_ne hq, setRunning_of_ne hq⟩
  | call => exact ⟨rfl, setRunning_of_ne hq⟩

/-- The descriptor of a slot stays until it is closed. -/
theorem finish_connFd {b : Build} {sv : Server} {fd : Nat} {out : Outcome}
    (h : Serving b sv fd (.done out)) : ((sv.finish b fd out).requestP fd).connFd = -1 ∨
      ((sv.finish b fd out).requestP fd).connFd = (sv.requestP fd).connFd := by
  obtain ⟨_, _, r, row, row', hbooks⟩ := h
  cases out with
  | exit => exact .inr rfl
  | ret val q sl =>
    obtain ⟨file, file', heff⟩ := effect_finish hbooks
    generalize hr : (sv.finish b fd (.ret val q sl)).requestP fd = reqP at heff
    generalize (sv.finish b fd (.ret val q sl)).selfLock = sl' at heff
    generalize (⟨file', row'.table⟩ : Kernel Unit) = s' at heff
    cases heff with
    | failed _ => exact .inr (by rw [← hr])
    | refused _ hc => exact .inl hc.1
    | lost _ _ hc => exact .inl hc.1
    | opened _ _ _ _ hconn _ _ _ => exact .inr hconn
    | released _ _ _ hc _ => exact .inl hc.1
    | booked _ _ _ hc _ _ _ => exact .inl hc.1

theorem LoopInv.own (hi : LoopInv build s) (hsound : ∀ q, Sound build s'.toInter q)
    (hother : ∀ q, q ≠ p →
      s'.server q = s.server q ∧ s'.running q = s.running q ∧ s'.front q = s.front q)
    (hp : (s'.front p).Ok (s'.server p) (s'.running p)) : LoopInv build s' := by
  refine ⟨hsound, fun q => ?_⟩
  by_cases hq : q = p
  · exact hq ▸ hp
  · obtain ⟨h1, h2, h3⟩ := hother q hq
    rw [h1, h2, h3]
    exact hi.ok q

/-- A step outside `Inter`. -/
theorem LoopInv.front {f : Front} (hi : LoopInv build s) (hp : f.Ok (s.server p) (s.running p)) :
    LoopInv build (s.setFront p f) :=
  hi.own hi.sound (fun _ hq => ⟨rfl, rfl, setFront_of_ne hq⟩) (by rw [setFront_self]; exact hp)

/-- A step of `Inter` taken by the loop. -/
theorem LoopInv.inter {w : Inter P} {e : InterEvent P} {f : Front} (hi : LoopInv build s)
    (hw : s.toInter.step build e = some w) (he : e.process = p)
    (hp : f.Ok (w.server p) (w.running p)) :
    LoopInv build ({ s with toInter := w }.setFront p f) := by
  refine hi.own (sound_step hi.sound hw) (fun q hq => ?_) (by rw [setFront_self]; exact hp)
  obtain ⟨h1, h2⟩ := inter_other hw (q := q) (by rw [he]; exact hq)
  exact ⟨h1, h2, setFront_of_ne hq⟩

section Front

variable {f : Front} {sv : Server} {run : Option (Nat × Sys Outcome)} {fd i : Nat}

theorem Front.Ok.send {r : ReadResult} (h : f.Ok sv run) : (f.put fd (f.inbox fd ++ [r])).Ok sv run := by
  refine ⟨h.index, h.client, h.range, h.serving, fun j hj hr => ?_⟩
  obtain ⟨hopen, hne⟩ := h.ahead j hj hr
  refine ⟨hopen, ?_⟩
  simp only [Front.put]
  split
  · simp
  · exact hne

theorem Front.Ok.poll (h : f.Ok sv none) : (f.polled sv).Ok sv none := by
  refine ⟨h.index, h.client, fun i hi => ?_, by simp, fun j _ hr => ?_⟩
  · simp only [Front.polled] at hi
    split at hi
    · cases hi
    · cases hi
      decide
  · simp only [Front.polled, Front.readable, Bool.and_eq_true] at hr
    refine ⟨hr.1.2, ?_⟩
    have hne := hr.2
    intro hin
    have hin : f.inbox j = [] := hin
    rw [hin] at hne
    cases hne

theorem accept_isOpen_of_ne {b : Build} {j : Nat} (hj : j ≠ fd) :
    (sv.accept b fd).isOpen j = sv.isOpen j := by
  simp [Server.isOpen, Server.accept, hj]

theorem Front.Ok.accept {b : Build} (h : f.Ok sv none) (hpc : f.pc = .accept)
    (hc : sv.canAccept fd = true) : (f.accepted fd).Ok (sv.accept b fd) none := by
  obtain ⟨_, _, _, hclosed⟩ := canAccept_iff.1 hc
  refine ⟨fun j hj => ?_, fun j hj => ?_, fun i hi => ?_, by simp, fun j _ hr => ?_⟩
  · by_cases hjf : j = fd
    · subst hjf
      simp [Server.accept, acceptRequest]
    · rw [accept_isOpen_of_ne hjf] at hj
      simpa [Server.accept, hjf] using h.index j hj
  · by_cases hjf : j = fd
    · simp [Front.accepted, hjf]
    · rw [accept_isOpen_of_ne hjf] at hj
      simpa [Front.accepted, hjf] using h.client j hj
  · cases hi
    decide
  · obtain ⟨hopen, hne⟩ := h.ahead j (by simp [Front.Ahead, hpc]) hr
    have hjf : j ≠ fd := by
      rintro rfl
      exact isOpen_iff.1 hopen hclosed
    rw [accept_isOpen_of_ne hjf]
    exact ⟨hopen, by simpa [Front.accepted, hjf] using hne⟩

theorem Front.Ok.toPoll (h : f.Ok sv none) : ({ f with pc := .poll } : Front).Ok sv none :=
  ⟨h.index, h.client, by simp, by simp, fun _ hj => hj.elim⟩

theorem Front.Ok.skip (h : f.Ok sv none) (hpc : f.pc = .scan i) (hi : i < MAXFD) :
    ({ f with pc := .scan (i + 1) } : Front).Ok sv none := by
  obtain ⟨hlow, _⟩ := h.range i hpc
  refine ⟨h.index, h.client, fun j hj => ?_, by simp, fun j hj hr => ?_⟩
  · cases hj
    omega
  · refine h.ahead j ?_ hr
    have hj : i + 1 ≤ j := hj
    simp only [Front.Ahead, hpc, Option.isSome_none, Bool.false_eq_true, if_false]
    omega

theorem Front.Ok.serve {prog : Sys Outcome} {rest : List ReadResult} (h : f.Ok sv none)
    (hpc : f.pc = .scan i) : (f.put i rest).Ok sv (some (i, prog)) := by
  refine ⟨h.index, h.client, h.range, fun j prog' hj => ?_, fun j hj hr => ?_⟩
  · cases hj
    exact hpc
  · have hlt : i < j := by simpa [Front.Ahead, Front.put, hpc] using hj
    have hji : j ≠ i := by omega
    obtain ⟨hopen, hne⟩ := h.ahead j (by simpa [Front.Ahead, hpc] using hlt.le) hr
    exact ⟨hopen, by simpa [Front.put, hji] using hne⟩

theorem Front.Ok.inside {prog prog' : Sys Outcome} (h : f.Ok sv (some (fd, prog))) :
    f.Ok sv (some (fd, prog')) := by
  refine ⟨h.index, h.client, h.range, fun j prog'' hj => ?_, h.ahead⟩
  cases hj
  exact h.serving fd prog rfl

theorem finish_isOpen_of_ne {b : Build} {out : Outcome} {j : Nat} (hj : j ≠ fd) :
    (sv.finish b fd out).isOpen j = sv.isOpen j := by
  simp only [Server.isOpen, finish_requestP_of_ne hj]

theorem Front.Ok.leave {b : Build} {out : Outcome} (h : f.Ok sv (some (fd, .done out)))
    (hs : Serving b sv fd (.done out)) :
    ({ f with pc := .scan (fd + 1) } : Front).Ok (sv.finish b fd out) none := by
  have hpc := h.serving fd _ rfl
  obtain ⟨_, hlow, hhigh, hopen⟩ := canServe_iff.1 hs.canServe
  have hback : ∀ j, (sv.finish b fd out).isOpen j = true → sv.isOpen j = true ∧
      ((sv.finish b fd out).requestP j).connFd = (sv.requestP j).connFd := by
    intro j hj
    by_cases hjf : j = fd
    · subst hjf
      rcases finish_connFd hs with hc | hc
      · exact absurd hc (isOpen_iff.1 hj)
      · exact ⟨isOpen_iff.2 hopen, hc⟩
    · rw [finish_isOpen_of_ne hjf] at hj
      exact ⟨hj, by rw [finish_requestP_of_ne hjf]⟩
  refine ⟨fun j hj => ?_, fun j hj => h.client j (hback j hj).1, fun i hi => ?_, by simp,
    fun j hj hr => ?_⟩
  · rw [(hback j hj).2]
    exact h.index j (hback j hj).1
  · cases hi
    omega
  · have hlt : fd + 1 ≤ j := hj
    obtain ⟨hopenj, hne⟩ := h.ahead j (by simpa [Front.Ahead, hpc] using (by omega : fd < j)) hr
    rw [finish_isOpen_of_ne (by omega)]
    exact ⟨hopenj, hne⟩

end Front

theorem LoopInv.step {e : LoopEvent P} (hi : LoopInv build s) (h : s.step build e = some s') :
    LoopInv build s' := by
  cases loop_cases h with
  | @connect p =>
    have hok := hi.ok p
    exact hi.front ⟨hok.index, hok.client, hok.range, hok.serving, hok.ahead⟩
  | @send p => exact hi.front (hi.ok p).send
  | @poll p hm _ =>
    obtain ⟨-, hrun⟩ := atMain_iff.1 hm
    have hok := hi.ok p
    rw [hrun] at hok
    exact hi.front (hrun ▸ hok.poll)
  | @accept p fd w hpc hw =>
    refine hi.inter hw rfl ?_
    cases inter_cases hw with
    | accept hrun hc =>
      have hok := hi.ok p
      rw [hrun] at hok
      rw [hrun, setServer_self]
      exact hok.accept hpc hc
  | @acceptFail p hpc =>
    have hok := hi.ok p
    have hrun : s.running p = none := by
      cases hr : s.running p with
      | none => rfl
      | some x => have := hok.serving _ _ hr; rw [hpc] at this; cases this
    rw [hrun] at hok
    exact hi.front (hrun ▸ hok.toPoll)
  | @skip p i hm hpc hlt _ =>
    obtain ⟨-, hrun⟩ := atMain_iff.1 hm
    have hok := hi.ok p
    rw [hrun] at hok
    exact hi.front (hrun ▸ hok.skip hpc hlt)
  | @passEnd p i hm _ _ =>
    obtain ⟨-, hrun⟩ := atMain_iff.1 hm
    have hok := hi.ok p
    rw [hrun] at hok
    exact hi.front (hrun ▸ hok.toPoll)
  | @serve p i r rest w hm hpc _ _ _ _ hw =>
    refine hi.inter hw rfl ?_
    obtain ⟨-, hrun⟩ := atMain_iff.1 hm
    have hok := hi.ok p
    rw [hrun] at hok
    cases inter_cases hw with
    | recv _ _ =>
      rw [setRunning_self]
      exact hok.serve hpc
  | @inside p i w hpc hw hne =>
    refine hi.own (p := p) (sound_step hi.sound hw) (fun q hq => ?_) ?_
    · obtain ⟨h1, h2⟩ := inter_other hw (q := q) hq
      exact ⟨h1, h2, rfl⟩
    · have hok := hi.ok p
      cases inter_cases hw with
      | finish hrun => rw [setRunning_self] at hne; cases hne
      | call hrun =>
        rw [hrun] at hok
        rw [setRunning_self]
        exact hok.inside
  | @leave p i w hpc hw hnone =>
    refine hi.inter hw rfl ?_
    have hok := hi.ok p
    cases inter_cases hw with
    | call hrun => rw [setRunning_self] at hnone; cases hnone
    | @finish p fd out hrun =>
      rw [hrun] at hok
      obtain rfl : i = fd := by
        have := hok.serving fd _ rfl
        rw [hpc] at this
        cases this
        rfl
      rw [setRunning_self]
      have hserver : (Inter.setRunning { s.toInter with
          toWorld := { s.toWorld with kernel := s.kernel.finish p out }.setServer p
            ((s.server p).finish (build p) i out) } p none).server p =
          (s.server p).finish (build p) i out := setServer_self
      rw [hserver]
      exact hok.leave ((hi.sound p).serving i _ hrun)

theorem Loop.Init.inv (h : s.Init) : LoopInv build s := by
  refine ⟨h.init.sound, fun p => ?_⟩
  have hf := h.init.init.fresh p
  have hclosed : ∀ fd, (s.server p).isOpen fd ≠ true := fun fd hfd => isOpen_iff.1 hfd (hf.connFd fd)
  refine ⟨fun fd hfd => absurd hfd (hclosed fd), fun fd hfd => absurd hfd (hclosed fd), ?_, ?_, ?_⟩
  · intro i hi
    rw [h.pc p] at hi
    cases hi
  · intro fd prog hrun
    rw [h.init.running p] at hrun
    cases hrun
  · intro fd hfd
    simp only [Front.Ahead, h.pc p] at hfd

/-! ## Waiting -/

/-- The process is inside the loop over the slots, or inside a call of `handle_read`, and its next
step can be taken. -/
def GoesOn (build : P → Build) (s : Loop P) (p : P) : Prop :=
  ∀ i, (s.server p).alive = true → (s.front p).pc = .scan i →
    (s.step build (if (s.running p).isNone then .scan p else .call p)).isSome = true

theorem LoopInv.goesOn (hi : LoopInv build s) : GoesOn build s p := by
  intro i ha hpc
  have hok := hi.ok p
  cases hrun : s.running p with
  | some x =>
    obtain ⟨fd, prog⟩ := x
    obtain ⟨w, hw⟩ : ∃ w, s.toInter.step build (.call p) = some w := by
      cases prog <;> simp [Inter.step, hrun]
    simp [Loop.step, hpc, hw]
  | none =>
    have hm : s.atMain p = true := atMain_iff.2 ⟨ha, hrun⟩
    rw [hrun] at hok
    simp only [Option.isNone_none, if_true, Loop.step, hm, hpc, Loop.scanAt]
    split
    · rename_i hlt
      split
      · rename_i hboth
        rw [Bool.and_eq_true] at hboth
        obtain ⟨hopen, hin⟩ := hboth
        have hrev : (s.front p).revents i = true := by
          have hidx := hok.index i hopen
          rw [Loop.pollin, hidx] at hin
          exact hin
        obtain ⟨-, hne⟩ := hok.ahead i (by simp [Front.Ahead, hpc]) hrev
        cases hbox : (s.front p).inbox i with
        | nil => exact absurd hbox hne
        | cons r rest =>
          have hserve : (s.server p).canServe i = true := by
            have := hok.range i hpc
            exact canServe_iff.2 ⟨ha, by omega, hlt, isOpen_iff.1 hopen⟩
          simp [Inter.step, hrun, hserve]
      · rfl
    · rfl

/-- The loop is a way to run the servers of `Inter`, and whatever clients and processes do, it only
ever waits in `poll`: a `read` it starts has something to return. -/
theorem loop_waits_only_in_poll {s0 : Loop P} {tr : List (Loop P × LoopEvent P)} (h0 : s0.Init)
    (h : Run (Loop.step build) s0 tr s) :
    Reachable (Inter.step build) s0.toInter s.toInter ∧
      Always (fun s => ∀ p, GoesOn build s p) tr s := by
  refine ⟨?_, ?_⟩
  · refine h.invariant (I := fun s => Reachable (Inter.step build) s0.toInter s.toInter)
      (fun s e s' hs he => ?_) .refl
    rcases loop_inter he with heq | ⟨e', he'⟩
    · rw [heq]
      exact hs
    · exact hs.tail he'
  · obtain ⟨ha, hs⟩ := h.invariant_of_meets (I := LoopInv build) (C := fun _ _ => True)
      (fun _ _ _ hi _ he => hi.step he) h0.inv fun _ _ => trivial
    exact ⟨fun x hx p => (ha x hx).goesOn, fun p => hs.goesOn⟩

/-! ## What a pass serves -/

def LoopEvent.process : LoopEvent P → P
  | .connect p => p
  | .send p _ _ => p
  | .poll p => p
  | .accept p _ => p
  | .acceptFail p => p
  | .scan p => p
  | .call p => p

/-- The slot for which process `p` starts `handle_read` in this step. -/
def LoopEvent.serves (p : P) (s : Loop P) : LoopEvent P → Option Nat
  | .scan q =>
    match (s.front q).pc with
    | .scan i =>
      if q = p ∧ i < MAXFD ∧ ((s.server q).isOpen i && s.pollin q i) = true then some i else none
    | _ => none
  | _ => none

def served (p : P) (tr : List (Loop P × LoopEvent P)) : List Nat :=
  tr.filterMap fun x => x.2.serves p x.1

/-- How many slots the pass is through with, the one that is being served included. -/
def Front.passed (f : Front) (busy : Bool) : Nat :=
  match f.pc with
  | .poll => MAXFD - (listenFd + 1)
  | .accept => 0
  | .scan i => (if busy then i + 1 else i) - (listenFd + 1)

/-- A pass with the answer `R` of `poll`, which has served `slots`. -/
structure Loop.InPass (s : Loop P) (p : P) (R : Nat → Bool) (slots : List Nat) : Prop where
  revents : (s.front p).revents = R
  slots : slots =
    (List.range' (listenFd + 1) ((s.front p).passed (s.running p).isSome)).filter R

theorem range'_filter_snoc {R : Nat → Bool} {a i : Nat} (h : a ≤ i) :
    (List.range' a (i + 1 - a)).filter R =
      (List.range' a (i - a)).filter R ++ if R i then [i] else [] := by
  rw [Nat.sub_add_comm h, List.range'_1_concat, List.filter_append, Nat.add_sub_cancel' h]
  congr 1
  by_cases hi : R i <;> simp [hi]

theorem serves_of_ne {e : LoopEvent P} (hq : q ≠ e.process) : e.serves q s = none := by
  cases e with
  | scan p =>
    simp only [LoopEvent.serves]
    split
    · exact if_neg fun h => hq h.1.symm
    · rfl
  | connect => rfl
  | send => rfl
  | poll => rfl
  | accept => rfl
  | acceptFail => rfl
  | call => rfl

theorem serves_scan {i : Nat} (hpc : (s.front p).pc = .scan i) : (LoopEvent.scan p).serves p s =
    if i < MAXFD ∧ ((s.server p).isOpen i && s.pollin p i) = true then some i else none := by
  simp only [LoopEvent.serves, hpc, true_and]

theorem loop_other {e : LoopEvent P} (h : s.step build e = some s') (hq : q ≠ e.process) :
    s'.running q = s.running q ∧ s'.front q = s.front q := by
  cases loop_cases h with
  | connect => exact ⟨rfl, setFront_of_ne hq⟩
  | send => exact ⟨rfl, setFront_of_ne hq⟩
  | poll => exact ⟨rfl, setFront_of_ne hq⟩
  | accept _ hw => exact ⟨(inter_other hw hq).2, setFront_of_ne hq⟩
  | acceptFail => exact ⟨rfl, setFront_of_ne hq⟩
  | skip => exact ⟨rfl, setFront_of_ne hq⟩
  | passEnd => exact ⟨rfl, setFront_of_ne hq⟩
  | serve _ _ _ _ _ _ hw => exact ⟨(inter_other hw hq).2, setFront_of_ne hq⟩
  | inside _ hw _ => exact ⟨(inter_other hw hq).2, rfl⟩
  | leave _ hw _ => exact ⟨(inter_other hw hq).2, setFront_of_ne hq⟩

/-- The pass comes by slot `i`, which it serves if `poll` has reported it. -/
theorem Loop.InPass.next {R : Nat → Bool} {slots more : List Nat} {i : Nat} (hs : s.InPass p R slots)
    (hpc : (s.front p).pc = .scan i) (hrun : s.running p = none) (hlow : listenFd < i)
    (hrev : (s'.front p).revents = (s.front p).revents)
    (hpassed : (s'.front p).passed (s'.running p).isSome = i + 1 - (listenFd + 1))
    (hmore : more = if R i then [i] else []) : s'.InPass p R (slots ++ more) := by
  refine ⟨hrev.trans hs.revents, ?_⟩
  have hold : (s.front p).passed (s.running p).isSome = i - (listenFd + 1) := by
    simp only [Front.passed, hpc, hrun, Option.isSome_none, Bool.false_eq_true, if_false]
  rw [hpassed, range'_filter_snoc hlow, ← hold, ← hs.slots, hmore]

/-- The pass does not move. -/
theorem Loop.InPass.stay {R : Nat → Bool} {slots : List Nat} (hs : s.InPass p R slots)
    (hrev : (s'.front p).revents = (s.front p).revents)
    (hpassed : (s'.front p).passed (s'.running p).isSome =
      (s.front p).passed (s.running p).isSome) : s'.InPass p R (slots ++ []) := by
  rw [List.append_nil]
  exact ⟨hrev.trans hs.revents, hpassed ▸ hs.slots⟩

/-- At an open slot, `main` finds what `poll` has reported for it. -/
theorem LoopInv.reported {i : Nat} (hi : LoopInv build s) (hpc : (s.front p).pc = .scan i)
    (hrun : s.running p = none) :
    ((s.server p).isOpen i && s.pollin p i) = (s.front p).revents i := by
  have hok := hi.ok p
  rw [hrun] at hok
  cases hopen : (s.server p).isOpen i with
  | true =>
    rw [Bool.true_and, Loop.pollin, hok.index i hopen]
    rfl
  | false =>
    cases hr : (s.front p).revents i with
    | false => rfl
    | true =>
      have := (hok.ahead i (by simp [Front.Ahead, hpc]) hr).1
      rw [hopen] at this
      cases this

theorem Loop.InPass.step {R : Nat → Bool} {slots : List Nat} {e : LoopEvent P} (hi : LoopInv build s)
    (hs : s.InPass p R slots) (hpoll : e ≠ .poll p) (hfail : e ≠ .acceptFail p)
    (h : s.step build e = some s') : s'.InPass p R (slots ++ (e.serves p s).toList) := by
  by_cases hp : p = e.process
  · cases loop_cases h with
    | @connect q =>
      obtain rfl : p = q := hp
      exact hs.stay (by rw [setFront_self]) (by rw [setFront_self]; rfl)
    | @send q =>
      obtain rfl : p = q := hp
      exact hs.stay (by rw [setFront_self]; rfl) (by rw [setFront_self]; rfl)
    | @poll q => exact absurd (congrArg LoopEvent.poll hp.symm) hpoll
    | @acceptFail q => exact absurd (congrArg LoopEvent.acceptFail hp.symm) hfail
    | @accept q fd w hpc hw =>
      obtain rfl : p = q := hp
      refine hs.stay (by rw [setFront_self]; rfl) ?_
      cases inter_cases hw with
      | accept hrun _ =>
        rw [setFront_self, setFront_toInter]
        simp [Front.passed, Front.accepted, hpc, hrun]
    | @skip q i hm hpc hlt hskip =>
      obtain rfl : p = q := hp
      obtain ⟨-, hrun⟩ := atMain_iff.1 hm
      have hlow := ((hi.ok p).range i hpc).1
      refine hs.next hpc hrun hlow (by rw [Loop.setPc, setFront_self]) ?_ ?_
      · rw [Loop.setPc, setFront_self]
        simp [Front.passed, hrun, Loop.setFront]
      · rw [hi.reported hpc hrun] at hskip
        rw [serves_scan hpc, hi.reported hpc hrun, hskip, ← hs.revents, hskip]
        simp
    | @passEnd q i hm hpc hge =>
      obtain rfl : p = q := hp
      obtain ⟨-, hrun⟩ := atMain_iff.1 hm
      obtain rfl : i = MAXFD := le_antisymm ((hi.ok p).range i hpc).2 hge
      rw [serves_scan hpc, if_neg (by omega)]
      refine hs.stay (by rw [Loop.setPc, setFront_self]) ?_
      rw [Loop.setPc, setFront_self]
      simp [Front.passed, hpc, hrun]
    | @serve q i r rest w hm hpc hlt hopen hin hbox hw =>
      obtain rfl : p = q := hp
      obtain ⟨-, hrun⟩ := atMain_iff.1 hm
      have hlow := ((hi.ok p).range i hpc).1
      have hboth : ((s.server p).isOpen i && s.pollin p i) = true := by rw [hopen, hin]; rfl
      refine hs.next hpc hrun hlow (by rw [setFront_self]; rfl) ?_ ?_
      · cases inter_cases hw with
        | recv _ _ =>
          rw [setFront_self, setFront_toInter, setRunning_self]
          simp [Front.passed, Front.put, hpc]
      · rw [serves_scan hpc, if_pos ⟨hlt, hboth⟩, ← hs.revents, ← hi.reported hpc hrun, hboth]
        rfl
    | @inside q i w hpc hw hne =>
      obtain rfl : p = q := hp
      refine hs.stay rfl ?_
      cases inter_cases hw with
      | finish => rw [setRunning_self] at hne; cases hne
      | call hrun =>
        rw [setRunning_self, hrun]
        rfl
    | @leave q i w hpc hw hnone =>
      obtain rfl : p = q := hp
      refine hs.stay (by rw [Loop.setPc, setFront_self]) ?_
      cases inter_cases hw with
      | call => rw [setRunning_self] at hnone; cases hnone
      | finish hrun =>
        rw [Loop.setPc, setFront_self, setFront_toInter, setRunning_self, hrun]
        simp [Front.passed, hpc]
  · obtain ⟨h1, h2⟩ := loop_other h hp
    rw [serves_of_ne hp]
    exact hs.stay (by rw [h2]) (by rw [h1, h2])

theorem served_snoc {tr : List (Loop P × LoopEvent P)} {e : LoopEvent P} :
    served p (tr ++ [(s, e)]) = served p tr ++ (e.serves p s).toList := by
  unfold served
  rw [List.filterMap_append]
  cases he : e.serves p s <;> simp [he]

theorem passed_polled {f : Front} {sv : Server} : (f.polled sv).passed false = 0 := by
  by_cases hb : 0 < f.backlog
  · simp only [Front.passed, Front.polled, if_pos hb]
  · simp [Front.passed, Front.polled, if_neg hb]

/-- From a `poll` on, as long as the process does not come to its next one, it has served just those
connections it has passed by that had something to read at that `poll`, each once and in the order of
their descriptors. What arrives later, on other connections or new ones, waits for the next pass. -/
theorem pass_serves {s0 s1 s2 : Loop P} {tr0 tr : List (Loop P × LoopEvent P)} (h0 : s0.Init)
    (h : Run (Loop.step build) s0 tr0 s) (hp : s.step build (.poll p) = some s1)
    (hr : Run (Loop.step build) s1 tr s2)
    (hno : Meets (fun _ e => e ≠ .poll p ∧ e ≠ .acceptFail p) tr) :
    served p tr = (List.range' (listenFd + 1) ((s2.front p).passed (s2.running p).isSome)).filter
      fun fd => (s.server p).isOpen fd && !((s.front p).inbox fd).isEmpty := by
  have hi : LoopInv build s := h.invariant (fun _ _ _ hi he => hi.step he) h0.inv
  have hi1 : LoopInv build s1 := hi.step hp
  have hstart : s1.InPass p
      (fun fd => (s.server p).isOpen fd && !((s.front p).inbox fd).isEmpty) [] := by
    cases loop_cases hp with
    | poll hm _ =>
      obtain ⟨-, hrun⟩ := atMain_iff.1 hm
      refine ⟨?_, ?_⟩
      · rw [setFront_self]
        funext fd
        simp only [Front.polled, Front.readable]
        cases hopen : (s.server p).isOpen fd with
        | false => simp
        | true => simp [(hi.ok p).client fd hopen]
      · rw [setFront_self, setFront_toInter, hrun, Option.isSome_none, passed_polled]
        rfl
  have hinv : LoopInv build s2 ∧ s2.InPass p
      (fun fd => (s.server p).isOpen fd && !((s.front p).inbox fd).isEmpty) (served p tr) := by
    induction hr with
    | nil => exact ⟨hi1, hstart⟩
    | snoc _ he ih =>
      obtain ⟨hno, hpoll, hfail⟩ := meets_snoc.1 hno
      obtain ⟨hi2, hpass⟩ := ih hno
      refine ⟨hi2.step he, ?_⟩
      rw [served_snoc]
      exact hpass.step hi2 hpoll hfail he
  exact hinv.2.slots

end

/-! ## A concrete pass -/

def freshLoop (P : Type) : Loop P :=
  { freshInter P with front := fun _ => ⟨.poll, 0, fun _ => [], fun _ => false, fun _ => false⟩ }

theorem freshLoop_init (P : Type) : (freshLoop P).Init :=
  ⟨freshInter_init P, fun _ => rfl, fun _ _ => rfl⟩

/-- A client connects and sends its id; it is accepted in the first pass, and not served yet. -/
def firstPass : List (LoopEvent (Fin 1)) :=
  [.connect 0, .poll 0, .accept 0 7, .send 0 7 (.data "902001\r\n".toList)] ++
    List.replicate 1020 (.scan 0)

def afterFirst : Loop (Fin 1) :=
  (runEvents (Loop.step fun _ => .writer) (freshLoop (Fin 1)) firstPass).getD (freshLoop (Fin 1))

def atSecond : Loop (Fin 1) := (afterFirst.step (fun _ => .writer) (.poll 0)).getD afterFirst

/-- The second pass has come to the slot of the client. -/
def inSecond : Loop (Fin 1) :=
  (runEvents (Loop.step fun _ => .writer) atSecond (List.replicate 3 (.scan 0))).getD atSecond

set_option maxRecDepth 10000 in
theorem secondPass_facts :
    (runEvents (Loop.step fun _ => .writer) (freshLoop (Fin 1)) firstPass).isSome = true ∧
      (afterFirst.step (fun _ => .writer) (.poll 0)).isSome = true ∧
      (runEvents (Loop.step fun _ => .writer) atSecond (List.replicate 3 (.scan 0))).isSome = true ∧
      Meets (fun _ e => e ≠ .poll 0 ∧ e ≠ .acceptFail 0) (traceOf (Loop.step fun _ => .writer)
        atSecond (List.replicate 3 (.scan 0))) ∧
      (inSecond.front 0).passed (inSecond.running 0).isSome = 3 := by
  decide +kernel

theorem loop_waits_only_in_poll_first :
    Reachable (Inter.step fun _ => .writer) (freshLoop (Fin 1)).toInter afterFirst.toInter ∧
      Always (fun s => ∀ p, GoesOn (fun _ => .writer) s p)
        (traceOf (Loop.step fun _ => .writer) (freshLoop (Fin 1)) firstPass) afterFirst :=
  loop_waits_only_in_poll (freshLoop_init _) (run_getD secondPass_facts.1)

set_option maxRecDepth 10000 in
theorem pass_serves_second :
    served 0 (traceOf (Loop.step fun _ => .writer) atSecond (List.replicate 3 (.scan 0))) =
      (List.range' (listenFd + 1) 3).filter fun fd =>
        (afterFirst.server 0).isOpen fd && !((afterFirst.front 0).inbox fd).isEmpty := by
  obtain ⟨hfirst, hpoll, hscan, hno, hpassed⟩ := secondPass_facts
  have hat : afterFirst.step (fun _ => .writer) (.poll 0) = some atSecond :=
    eq_some_getD hpoll afterFirst
  have hin : Run (Loop.step fun _ => .writer) atSecond (traceOf (Loop.step fun _ => .writer)
      atSecond (List.replicate 3 (.scan 0))) inSecond := run_getD hscan
  have hrun : Run (Loop.step fun _ => .writer) (freshLoop (Fin 1)) (traceOf
      (Loop.step fun _ => .writer) (freshLoop (Fin 1)) firstPass) afterFirst := run_getD hfirst
  have hpass := pass_serves (freshLoop_init (Fin 1)) hrun hat hin hno
  exact hpass.trans (congrArg (fun n => (List.range' (listenFd + 1) n).filter _) hpassed)

end SysProg.Booking
