import SysProg.Booking.Pipes

/-!
# SysProg.Booking.Neighbour

What a chunk that comes in on one connection does to the other connections, of the same server and
of the other servers.

* `handleRead_returns_iff`: `handle_read` comes back unless the chunk is a part of a line.
* `Effect.locks_session`: what it does to the locks of its own process leaves the lock of every
  other session alone.
* `unharmed_iff`: nothing happens to the other connections exactly if the chunk is not a part of a line
  and the client is there to read the answer.
-/

set_option linter.unusedSectionVars false

namespace SysProg.Booking

open LockType

/-! ## Does handle_read come back? -/

/-- No run of the program ends with the exit of the process. -/
def Sys.Returns : Sys Outcome → Prop
  | .done out => out ≠ .exit
  | .getlk _ _ cont => ∀ type, (cont type).Returns
  | .setlk _ _ cont => cont.Returns
  | .readRec _ cont => ∀ r, (cont r).Returns
  | .writeRec _ _ cont => cont.Returns

section

variable {P : Type} [DecidableEq P] [Fintype P] {b : Build} {reqP : Request} {sl : SelfLock}

theorem Sys.returns_iff {prog : Sys Outcome} : prog.Returns ↔ prog.Ends fun out => out ≠ .exit := by
  induction prog with
  | done out => exact Iff.rfl
  | getlk k type cont ih => exact forall_congr' ih
  | setlk k type cont ih => exact ih
  | readRec k cont ih => exact forall_congr' ih
  | writeRec k r cont ih => exact ih

theorem isLine_iff {buf : Text} : isLine buf = true ↔ '\n' ∈ buf := by
  have hlf : strstr buf ['\n'] = true ↔ '\n' ∈ buf := by
    rw [strstr, decide_eq_true_eq]
    exact List.singleton_infix_iff _ _
  rw [isLine, Bool.or_eq_true, hlf, strstr, decide_eq_true_eq]
  refine ⟨fun h => h.elim (fun h => h.subset (by simp)) id, .inr⟩

/-- A chunk that fits the buffer and has no NUL is what `handle_read` finds there. -/
theorem lineOf_eq {bytes : Text} (hlen : bytes.length ≤ 511) (hnul : '\x00' ∉ bytes) :
    lineOf bytes = bytes := by
  rw [lineOf, List.take_of_length_le (by omega), cstr, ← List.append_nil bytes,
    List.takeWhile_append_of_pos]
  · rfl
  · intro c hc
    rw [decide_eq_true_eq]
    rintro rfl
    exact hnul hc

theorem handleLine_returns {buf : Text} (h : '\n' ∈ buf ∨ buf.take 2 = IAC_IP) :
    (handleLine b buf reqP sl).Returns := by
  rw [Sys.returns_iff]
  have hcase := handleLine_case b buf reqP sl
  generalize handleLine b buf reqP sl = prog at hcase
  cases hcase with
  | part hl hi =>
    rw [← isLine_iff, hl] at h
    exact absurd h (by simpa using hi)
  | interrupt => exact mylockFunction_ends fun _ => nofun
  | interruptIdle => exact nofun
  | reader => exact (handleReader_ends _ _ _).mono fun _ h => h.1
  | writerId => exact (handleWriterId_ends _ _ _).mono fun _ h => h.1
  | writerCommand => exact (handleWriterCommand_ends _ _ _).mono fun _ h => h.1

theorem handleLine_exit {buf : Text} (h : '\n' ∉ buf) (hi : buf.take 2 ≠ IAC_IP) :
    handleLine b buf reqP sl = .done .exit := by
  rw [← isLine_iff] at h
  have hcase := handleLine_case b buf reqP sl
  generalize handleLine b buf reqP sl = prog at hcase
  cases hcase with
  | part => rfl
  | interrupt _ hi' | interruptIdle _ hi' => exact absurd hi' hi
  | reader hl | writerId hl | writerCommand hl => exact absurd hl h

theorem handleRead_returns_iff {bytes : Text} (hne : bytes ≠ []) (hlen : bytes.length ≤ 511)
    (hnul : '\x00' ∉ bytes) (p : P) (s : Kernel P) :
    ((handleRead b (.data bytes) reqP sl).exec p s).1 ≠ .exit ↔
      '\n' ∈ bytes ∨ bytes.take 2 = IAC_IP := by
  rw [handleRead_data hne, lineOf_eq hlen hnul]
  constructor
  · intro h
    by_contra hn
    obtain ⟨h1, h2⟩ := not_or.1 hn
    rw [handleLine_exit h1 h2] at h
    exact h rfl
  · exact fun h => (Sys.returns_iff.1 (handleLine_returns h)).exec p

end

/-! ## The other connections -/

section

variable {P : Type} [DecidableEq P] [Fintype P] {build : P → Build} {w w' : World P}

/-- The chunk on connection `fd` of process `p` did not hurt anybody: the server runs on, and the
request, the session and the lock on the record of the session are the same for every other open
connection. -/
def Unharmed (build : P → Build) (w w' : World P) (p : P) (fd : Nat) : Prop :=
  (w'.server p).alive = true ∧ ∀ q fd', (q, fd') ≠ (p, fd) → (w.server q).alive = true →
    ((w.server q).requestP fd').connFd ≠ -1 →
      (w'.server q).alive = true ∧ (w'.server q).requestP fd' = (w.server q).requestP fd' ∧
        ∀ k, ((w'.server q).Session (build q) fd' k ↔ (w.server q).Session (build q) fd' k) ∧
          ((w.server q).Session (build q) fd' k → w'.kernel.locks k q = w.kernel.locks k q)

/-- A session on the record of another session is one of a read server that counts both. -/
theorem Server.Inv.two_sessions {b : Build} {sv : Server} {row : CInt → LockType} (hi : sv.Inv b row)
    {fd fd' : Nat} {k : CInt} (h : sv.Session b fd k) (h' : sv.Session b fd' k) (hne : fd' ≠ fd) :
    b = .reader ∧ 2 ≤ sv.selfLock k := by
  have hcard : 1 < (sv.shown b k).card :=
    Finset.one_lt_card.2 ⟨fd, hi.mem_shown_iff.2 h, fd', hi.mem_shown_iff.2 h', Ne.symm hne⟩
  have hcount := hi.count k
  refine ⟨?_, by omega⟩
  cases b with
  | reader => rfl
  | writer =>
    have hone := hi.single rfl k
    omega

theorem Effect.locks_session {b : Build} {sv : Server} {p : P} {s s' : Kernel P} {r : ReadResult}
    {q : Request} {sl : SelfLock} {fd fd' : Nat} {k : CInt}
    (he : Effect b p (sv.requestP fd) sv.selfLock s r q sl s')
    (hi : sv.Inv b fun k => s.locks k p) (hal : sv.alive = true)
    (hopen : (sv.requestP fd).connFd ≠ -1) (hne : fd' ≠ fd) (hs : sv.Session b fd' k) :
    s'.locks k p = s.locks k p := by
  have hpos : 1 ≤ sv.selfLock k := by
    have hcard : 0 < (sv.shown b k).card := Finset.card_pos.2 ⟨fd', hi.mem_shown_iff.2 hs⟩
    have hcount := hi.count k
    omega
  have hown : ∀ {k'}, InSession b (sv.requestP fd) = true → (sv.requestP fd).id = HEAD + k' →
      sv.Session b fd k' := fun hbusy hid => ⟨hal, hopen, hbusy, hid⟩
  cases he with
  | failed _ => rfl
  | refused _ _ => rfl
  | lost _ _ _ => rfl
  | @opened _ k' _ _ _ hfree =>
    by_cases e : k = k'
    · subst e
      have hheld := hi.held k
      rw [if_pos (by omega)] at hheld
      simp only [LockTable.put_self, hheld]
    · exact LockTable.put_of_ne_region e
  | @released _ k' hbusy hid =>
    by_cases e : k = k'
    · subst e
      obtain ⟨rfl, htwo⟩ := hi.two_sessions (hown hbusy hid) hs hne
      simp only [unlock]
      rw [if_pos ⟨trivial, by omega⟩]
    · exact unlock_of_ne_region e
  | @booked _ k' _ hb hbusy hid =>
    by_cases e : k = k'
    · subst e
      obtain ⟨hr, -⟩ := hi.two_sessions (hown hbusy hid) hs hne
      rw [hr] at hb
      cases hb
    · exact LockTable.put_of_ne_region e

theorem StepCase.recv_process {p p' : P} {fd : Nat} {r : ReadResult} {sv : Server} {s : Kernel P}
    (h : StepCase build w p' (.recv p fd r) sv s) : p' = p := by
  cases h with
  | exit => rfl
  | served => rfl

/-- A step for a chunk that the server survives. -/
theorem StepCase.survived {p : P} {fd : Nat} {r : ReadResult} {sv : Server} {s : Kernel P}
    (h : StepCase build w p (.recv p fd r) sv s) (hal : sv.alive = true) :
    (w.server p).canServe fd = true ∧
      Effect (build p) p ((w.server p).requestP fd) (w.server p).selfLock w.kernel r
        (sv.requestP fd) sv.selfLock s ∧
      ∀ j, j ≠ fd → sv.requestP j = (w.server p).requestP j := by
  cases h with
  | exit => cases hal
  | served hc he _ hr => exact ⟨hc, he, hr⟩

theorem unharmed_of_alive {p : P} {fd : Nat} {r : ReadResult} (hi : Inv build w)
    (h : w.step build (.recv p fd r) = some w') (hal : (w'.server p).alive = true) :
    Unharmed build w w' p fd := by
  obtain ⟨p', hcase, hother⟩ := step_cases hi h
  obtain rfl := hcase.recv_process
  obtain ⟨hc, he, hr⟩ := hcase.survived hal
  obtain ⟨halive, -, -, hopen⟩ := canServe_iff.1 hc
  refine ⟨hal, fun q fd' hne hq _ => ?_⟩
  by_cases e : q = p'
  · subst e
    have hfd : fd' ≠ fd := fun e => hne (by rw [e])
    refine ⟨hal, hr fd' hfd, fun k => ⟨session_congr (by rw [hal, hq]) (hr fd' hfd), fun hs => ?_⟩⟩
    exact he.locks_session (hi.alive q halive) halive hopen hfd hs
  · rw [hother q e]
    exact ⟨hq, rfl, fun k => ⟨Iff.rfl, fun _ => hcase.locks_other e k⟩⟩

/-- `World.step` on a chunk, by what `handle_read` ends with. -/
theorem alive_iff {p : P} {fd : Nat} {r : ReadResult}
    (h : w.step build (.recv p fd r) = some w') :
    (w'.server p).alive = true ↔ (w.handle build p fd r).1 ≠ .exit := by
  simp only [World.step] at h
  split at h
  · rename_i hc
    have halive := (canServe_iff.1 hc).1
    cases h
    rw [setServer_self]
    cases (w.handle build p fd r).1 with
    | exit => simp [Server.finish]
    | ret val reqP sl => simp [Server.finish, halive]
  · cases h

/-- A chunk hurts other connections exactly if it is a part of a line, or its answer meets SIGPIPE. -/
theorem unharmed_iff {w0 : World P} {p : P} {fd : Nat} {bytes : Text} {broken : Option Nat} (h0 : w0.Init)
    (hr : Reachable (World.attempt build) w0 w) (hne : bytes ≠ []) (hlen : bytes.length ≤ 511)
    (hnul : '\x00' ∉ bytes) (h : w.attempt build ⟨.recv p fd (.data bytes), broken⟩ = some w') :
    Unharmed build w w' p fd ↔ ('\n' ∈ bytes ∨ bytes.take 2 = IAC_IP) ∧ broken = none := by
  have hi := (reachable_attempt h0 hr).1
  cases broken with
  | none =>
    rw [attempt_none] at h
    have hret : (w.handle build p fd (.data bytes)).1 ≠ .exit ↔
        '\n' ∈ bytes ∨ bytes.take 2 = IAC_IP := handleRead_returns_iff hne hlen hnul p w.kernel
    rw [← hret, ← alive_iff h, and_iff_left rfl]
    exact ⟨fun hu => hu.1, unharmed_of_alive hi h⟩
  | some n =>
    have hdead : (w'.server p).alive = false := attempt_broken h (by simp)
    constructor
    · intro hu
      rw [hu.1] at hdead
      cases hdead
    · rintro ⟨-, hn⟩
      cases hn

end

/-- Two clients of a read server; the first one has been shown its record. -/
def neighbours : World (Fin 1) :=
  (runEvents (World.step fun _ => .reader) (freshWorld (Fin 1))
    [.accept 0 5, .accept 0 6, .recv 0 5 (.data "902001\r\n".toList)]).getD (freshWorld (Fin 1))

theorem neighbours_reachable :
    Reachable (World.attempt fun _ => .reader) (freshWorld (Fin 1)) neighbours := by
  have h : runEvents (World.step fun _ => .reader) (freshWorld (Fin 1))
      [.accept 0 5, .accept 0 6, .recv 0 5 (.data "902001\r\n".toList)] = some neighbours := rfl
  exact attempt_of_reachable (reachable_runEvents h)

/-- The second client sends its id and reads the answer. -/
theorem unharmed_iff_shown : ∃ w' : World (Fin 1), neighbours.attempt (fun _ => .reader)
    ⟨.recv 0 6 (.data "902002\r\n".toList), none⟩ = some w' ∧
      Unharmed (fun _ => .reader) neighbours w' 0 6 := by
  obtain ⟨w', h⟩ : ∃ w', neighbours.attempt (fun _ => .reader)
      ⟨.recv 0 6 (.data "902002\r\n".toList), none⟩ = some w' :=
    Option.isSome_iff_exists.1 (by decide +kernel)
  exact ⟨w', h, (unharmed_iff (freshWorld_init _) neighbours_reachable (by decide) (by decide)
    (by decide) h).2 ⟨.inl (by decide), rfl⟩⟩

/-- A client whose line arrives in two parts brings the server down, and so does one that is gone when
the second message of the answer is written. -/
theorem chunk_harms : ¬ (∀ (b : Build) (w0 w w' : World (Fin 1)) (fd : Nat) (bytes : Text)
      (broken : Option Nat), w0.Init → Reachable (World.attempt fun _ => b) w0 w → bytes ≠ [] →
        bytes.length ≤ 511 → '\x00' ∉ bytes →
          w.attempt (fun _ => b) ⟨.recv 0 fd (.data bytes), broken⟩ = some w' →
            Unharmed (fun _ => b) w w' 0 fd) ∧
    ∃ w' : World (Fin 1), neighbours.attempt (fun _ => .reader)
      ⟨.recv 0 6 (.data "902002\r\n".toList), some 1⟩ = some w' ∧
        ¬ Unharmed (fun _ => .reader) neighbours w' 0 6 := by
  constructor
  · intro hall
    obtain ⟨w', h⟩ : ∃ w', neighbours.attempt (fun _ => .reader)
        ⟨.recv 0 6 (.data "Ex".toList), none⟩ = some w' := Option.isSome_iff_exists.1 (by decide +kernel)
    have hu := hall .reader _ _ w' 6 _ none (freshWorld_init _) neighbours_reachable (by decide)
      (by decide) (by decide) h
    rw [attempt_none] at h
    exact (alive_iff h).1 hu.1 rfl
  · obtain ⟨w', h⟩ : ∃ w', neighbours.attempt (fun _ => .reader)
        ⟨.recv 0 6 (.data "902002\r\n".toList), some 1⟩ = some w' :=
      Option.isSome_iff_exists.1 (by decide +kernel)
    refine ⟨w', h, fun hu => ?_⟩
    have hdead : (w'.server 0).alive = false := attempt_broken h (by simp)
    rw [hu.1] at hdead
    cases hdead

end SysProg.Booking
