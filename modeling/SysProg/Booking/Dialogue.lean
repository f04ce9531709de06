import SysProg.Booking.Pipes

/-!
# SysProg.Booking.Dialogue

What a client and its server tell each other, from the accept to the end of the connection.

* `refusal`, `closing`: the last words of the server, by what the client has sent. `Fatal`: the chunk
  that leaves no server.
* `Dialogue`: the dialogues there are, with the state of the slot after each.
* `Reaction`, `handle_reaction`: what one call of `handle_read` says.
* `words`: what is said on a connection in a run.
* `file_of_session`: an open session of either build keeps the record as it was shown.
* `Talk.step`: a connection in the steps of all servers; `Talk.kill`: when SIGPIPE ends its process.
* `dialogue`: every connection of every run.
-/

set_option linter.unusedSectionVars false

namespace SysProg.Booking

open LockType

inductive Word where
  | said (r : ReadResult)
  | heard (text : Text)
  deriving DecidableEq

/-- The message after a listing. -/
def Build.follow : Build → Text
  | .writer => commandMsg
  | .reader => exitMsg

/-- The chunk is a line with the id of a record. -/
def IdLine (r : ReadResult) (id : CInt) : Prop :=
  ∃ bytes, r = .data bytes ∧ isLine (lineOf bytes) = true ∧ atoi (lineOf bytes) = id ∧
    badOffset (id - HEAD) = false

/-- `handle_read` exits on the chunk: it is neither a line nor Ctrl-C. -/
def Fatal (r : ReadResult) : Prop :=
  ∃ bytes, r = .data bytes ∧ bytes ≠ [] ∧ isLine (lineOf bytes) = false ∧
    (lineOf bytes).take 2 ≠ IAC_IP

/-- The chunk is answered, if only by the end of the connection. -/
def Heeded (r : ReadResult) : Prop := r ≠ .error ∧ ¬ Fatal r

/-- The answer to a first chunk that opens no session. -/
def refusal : ReadResult → List Text
  | .error => []
  | .data [] => [failedMsg]
  | .data bytes =>
    if isLine (lineOf bytes) then
      if badOffset (atoi (lineOf bytes) - HEAD) then [failedMsg] else [lockedMsg]
    -- Ctrl-C
    else []

/-- The answer to the chunk that ends a session in which `counts` were shown. -/
def closing (b : Build) (id : CInt) (counts : Fin 3 → CInt) : ReadResult → List Text
  | .error => []
  | .data [] => [failedMsg]
  | .data bytes =>
    if isLine (lineOf bytes) then
      match b with
      | .reader => if (lineOf bytes).take 4 = ['E', 'x', 'i', 't'] then [] else [failedMsg]
      | .writer =>
        match myatoi (lineOf bytes) with
        | none => [failedMsg]
        | some nums =>
          if overLimit counts nums then [exceedMsg]
          else if underZero counts nums then [negativeMsg]
          else [updatedMsg id, bookings fun i => counts i + nums i]
    else []

/-- The dialogues on a connection. The last argument is what an open session has been shown. -/
inductive Dialogue (b : Build) (reqP : Request) : List Word → Option (Fin 3 → CInt) → Prop where
  | asked : reqP.connFd ≠ -1 → InSession b reqP = false → Dialogue b reqP [.heard promptMsg] none
  | shown {r : ReadResult} {counts : Fin 3 → CInt} : reqP.connFd ≠ -1 → InSession b reqP = true →
      IdLine r reqP.id →
      Dialogue b reqP [.heard promptMsg, .said r, .heard (listing counts), .heard b.follow] (some counts)
  | refused {r : ReadResult} : Closed reqP → Heeded r →
      Dialogue b reqP ([.heard promptMsg, .said r] ++ (refusal r).map .heard) none
  | ended {r r' : ReadResult} {id : CInt} {counts : Fin 3 → CInt} : Closed reqP → IdLine r id →
      Heeded r' →
      Dialogue b reqP ([.heard promptMsg, .said r, .heard (listing counts), .heard b.follow, .said r'] ++
        (closing b id counts r').map .heard) none

/-! ## One call -/

/-- The outcome of a call, with what `main` sends after it, for the file before it. -/
inductive Reaction (b : Build) (reqP : Request) (file : CInt → Record) (r : ReadResult) :
    Outcome → Prop where
  | died : Fatal r → Reaction b reqP file r .exit
  | ignored {sl : SelfLock} : r = .error → Reaction b reqP file r (.ret (-1) reqP sl)
  | refused {val : Int} {q : Request} {sl : SelfLock} : Heeded r → InSession b reqP = false →
      Closed (afterRead b val q).1 →
      (afterRead b val q).2 = (refusal r).map (reqP.connFd, ·) → Reaction b reqP file r (.ret val q sl)
  | opened {val : Int} {q : Request} {sl : SelfLock} : InSession b reqP = false →
      IdLine r (afterRead b val q).1.id → (afterRead b val q).1.connFd = reqP.connFd →
      InSession b (afterRead b val q).1 = true →
      (afterRead b val q).2 = [(reqP.connFd,
        listing (file ((afterRead b val q).1.id - HEAD)).bookingState), (reqP.connFd, b.follow)] →
      Reaction b reqP file r (.ret val q sl)
  | ended {val : Int} {q : Request} {sl : SelfLock} : Heeded r → InSession b reqP = true →
      Closed (afterRead b val q).1 →
      (afterRead b val q).2 =
        (closing b reqP.id (file (reqP.id - HEAD)).bookingState r).map (reqP.connFd, ·) →
      Reaction b reqP file r (.ret val q sl)

section

variable {b : Build} {reqP : Request} {bytes : Text} {r : ReadResult}

theorem data_ne_error (bytes : Text) : ReadResult.data bytes ≠ .error := by simp

theorem Fatal.ne_error (h : Fatal r) : r ≠ .error := by
  obtain ⟨bytes, rfl, -⟩ := h
  exact data_ne_error bytes

theorem heeded_end : Heeded (.data []) := by
  refine ⟨data_ne_error [], ?_⟩
  rintro ⟨bytes, h, hne, -⟩
  cases h
  exact hne rfl

theorem heeded_line (hl : isLine (lineOf bytes) = true) : Heeded (.data bytes) := by
  refine ⟨data_ne_error bytes, ?_⟩
  rintro ⟨bytes', h, -, hpart, -⟩
  cases h
  exact absurd (hl.symm.trans hpart) (by simp)

theorem heeded_interrupt (hi : (lineOf bytes).take 2 = IAC_IP) : Heeded (.data bytes) := by
  refine ⟨data_ne_error bytes, ?_⟩
  rintro ⟨bytes', h, -, -, hne⟩
  cases h
  exact hne hi

theorem send_open {fd : Int} (h : fd ≠ -1) (text : Text) : send fd text = [(fd, text)] := if_neg h

theorem send_closed (text : Text) : send (-1) text = [] := if_pos rfl

/-- What is sent when the call has not succeeded: the reply after it goes to a closed connection. -/
theorem afterRead_sent (b : Build) {val : Int} (h1 : val ≠ 1) (h0 : 0 ≤ val) (h : reqP.connFd ≠ -1) :
    (afterRead b val reqP).2 = (errorReply val).toList.map (reqP.connFd, ·) := by
  have hfall : (reply b (freeRequest reqP)).2 = [] := by
    have hconn : (freeRequest reqP).connFd = -1 := rfl
    cases b with
    | reader =>
      simp only [reply]
      split
      · rfl
      · simp [hconn, send_closed]
    | writer =>
      simp only [reply]
      split
      · simp [hconn, send_closed]
      · simp [hconn, send_closed]
  rw [afterRead, if_neg h1, if_neg (by omega)]
  simp only [hfall, List.append_nil]
  cases errorReply val with
  | none => rfl
  | some text => exact send_open h text

theorem refusal_data (hne : bytes ≠ []) : refusal (.data bytes) =
    if isLine (lineOf bytes) then
      if badOffset (atoi (lineOf bytes) - HEAD) then [failedMsg] else [lockedMsg]
    else [] := by
  cases bytes with
  | nil => exact absurd rfl hne
  | cons c cs => rfl

theorem closing_data (b : Build) (id : CInt) (counts : Fin 3 → CInt) (hne : bytes ≠ []) :
    closing b id counts (.data bytes) =
      if isLine (lineOf bytes) then
        match b with
        | .reader => if (lineOf bytes).take 4 = ['E', 'x', 'i', 't'] then [] else [failedMsg]
        | .writer =>
          match myatoi (lineOf bytes) with
          | none => [failedMsg]
          | some nums =>
            if overLimit counts nums then [exceedMsg]
            else if underZero counts nums then [negativeMsg]
            else [updatedMsg id, bookings fun i => counts i + nums i]
      else [] := by
  cases bytes with
  | nil => exact absurd rfl hne
  | cons c cs => rfl

end

section

variable {P : Type} [DecidableEq P] [Fintype P] {p : P} {reqP : Request} {sl : SelfLock}
  {s s' : Kernel P} {out : Outcome} {bytes : Text}

theorem reaction_refused {b : Build} {file : CInt → Record} {r : ReadResult} {q : Request} {val : Int}
    (hr : Heeded r) (hidle : InSession b reqP = false) (hopen : reqP.connFd ≠ -1) (h1 : val ≠ 1)
    (h0 : 0 ≤ val) (hq : q.connFd = reqP.connFd) (htext : refusal r = (errorReply val).toList) :
    Reaction b reqP file r (.ret val q sl) := by
  refine .refused hr hidle (afterRead_closed b q h1 h0) ?_
  rw [htext, ← hq]
  exact afterRead_sent b h1 h0 (hq ▸ hopen)

theorem reaction_ended {b : Build} {file : CInt → Record} {r : ReadResult} {q : Request} {val : Int}
    (hr : Heeded r) (hbusy : InSession b reqP = true) (hopen : reqP.connFd ≠ -1) (h1 : val ≠ 1)
    (h0 : 0 ≤ val) (hq : q.connFd = reqP.connFd)
    (htext : closing b reqP.id (file (reqP.id - HEAD)).bookingState r = (errorReply val).toList) :
    Reaction b reqP file r (.ret val q sl) := by
  refine .ended hr hbusy (afterRead_closed b q h1 h0) ?_
  rw [htext, ← hq]
  exact afterRead_sent b h1 h0 (hq ▸ hopen)

theorem reaction_opened {b : Build} {file : CInt → Record} {r : ReadResult} {q q' : Request}
    (hidle : InSession b reqP = false) (hopen : reqP.connFd ≠ -1) (hid : IdLine r q'.id)
    (hreply : reply b q = (q', send q.connFd q.buf ++ send q.connFd b.follow))
    (hq : q.connFd = reqP.connFd) (hq' : q'.connFd = reqP.connFd) (hbusy : InSession b q' = true)
    (hbuf : q.buf = listing (file (q'.id - HEAD)).bookingState) :
    Reaction b reqP file r (.ret 1 q sl) := by
  have hafter := (afterRead_one b q).trans hreply
  refine .opened hidle ?_ ?_ ?_ ?_
  · rw [hafter]
    exact hid
  · rw [hafter]
    exact hq'
  · rw [hafter]
    exact hbusy
  · rw [hafter, hq, send_open hopen, send_open hopen, hbuf]
    rfl

theorem reply_reader {q : Request} {counts : Fin 3 → CInt} (h : q.buf = listing counts) :
    reply .reader q = ({ q with done := true }, send q.connFd q.buf ++ send q.connFd exitMsg) := by
  have hexit : q.buf ≠ ['E', 'x', 'i', 't'] := by
    rw [h]
    exact listing_ne_exit counts
  simp only [reply, if_neg hexit]

theorem reply_writer {q : Request} (h : q.waitForWrite = true) : reply .writer q =
    ({ q with waitForWrite := false }, send q.connFd q.buf ++ send q.connFd commandMsg) := by
  simp only [reply, h, if_true]

theorem handleReader_reaction (hne : bytes ≠ []) (hl : isLine (lineOf bytes) = true)
    (hopen : reqP.connFd ≠ -1) (h : (handleReader (lineOf bytes) reqP sl).exec p s = (out, s')) :
    Reaction .reader reqP s.file (.data bytes) out := by
  unfold handleReader at h
  split at h
  · rename_i hd
    split at h
    · rename_i he
      rw [exec_mylockFunction_unlck] at h
      cases h
      refine .ended (heeded_line hl) hd ?_ ?_
      · simp [afterRead_one, reply, Closed, freeRequest, initRequest]
      · rw [closing_data _ _ _ hne, if_pos hl]
        simp [afterRead_one, reply, he]
    · rename_i he
      cases h
      refine reaction_ended (heeded_line hl) hd hopen (by decide) (by decide) rfl ?_
      rw [closing_data _ _ _ hne, if_pos hl]
      exact if_neg he
  · rename_i hd
    have hidle : InSession .reader reqP = false := by simpa [InSession] using hd
    simp only [] at h
    split at h
    · rename_i hoff
      cases h
      refine reaction_refused (heeded_line hl) hidle hopen (by decide) (by decide) rfl ?_
      rw [refusal_data hne, if_pos hl, if_pos hoff]
      rfl
    · rename_i hoff
      simp only [mylockCheck, Sys.exec] at h
      split at h
      · cases h
        refine reaction_refused (heeded_line hl) hidle hopen (by decide) (by decide) rfl ?_
        rw [refusal_data hne, if_pos hl, if_neg hoff]
        rfl
      · rename_i hw
        have hg := LockTable.getlk_rdlck_ne_wrlck.1 hw
        rw [show rdlck = Build.lockType .reader from rfl, exec_mylockFunction_lock _ _ _ _ _ _ hg] at h
        cases h
        exact reaction_opened hidle hopen ⟨bytes, rfl, hl, rfl, by simpa using hoff⟩
          (reply_reader rfl) rfl rfl rfl rfl

theorem handleWriterId_reaction (hne : bytes ≠ []) (hl : isLine (lineOf bytes) = true)
    (hw : reqP.waitForWrite = true) (hopen : reqP.connFd ≠ -1)
    (h : (handleWriterId (lineOf bytes) reqP sl).exec p s = (out, s')) :
    Reaction .writer reqP s.file (.data bytes) out := by
  have hidle : InSession .writer reqP = false := by simp [InSession, hw]
  unfold handleWriterId at h
  simp only [] at h
  split at h
  · rename_i hoff
    cases h
    refine reaction_refused (heeded_line hl) hidle hopen (by decide) (by decide) rfl ?_
    rw [refusal_data hne, if_pos hl, if_pos hoff]
    rfl
  · rename_i hoff
    simp only [mylockCheck, Sys.exec] at h
    split at h
    · cases h
      refine reaction_refused (heeded_line hl) hidle hopen (by decide) (by decide) rfl ?_
      rw [refusal_data hne, if_pos hl, if_neg hoff]
      rfl
    · rename_i hc
      simp only [ne_eq, not_or, not_not] at hc
      have hg := LockTable.getlk_eq_unlck.1 hc.1
      rw [show wrlck = Build.lockType .writer from rfl, exec_mylockFunction_lock _ _ _ _ _ _ hg] at h
      cases h
      exact reaction_opened hidle hopen ⟨bytes, rfl, hl, rfl, by simpa using hoff⟩
        (reply_writer hw) rfl rfl rfl rfl

theorem handleWriterCommand_reaction (hne : bytes ≠ []) (hl : isLine (lineOf bytes) = true)
    (hw : reqP.waitForWrite = false) (hopen : reqP.connFd ≠ -1)
    (h : (handleWriterCommand (lineOf bytes) reqP sl).exec p s = (out, s')) :
    Reaction .writer reqP s.file (.data bytes) out := by
  have hbusy : InSession .writer reqP = true := by simp [InSession, hw]
  unfold handleWriterCommand at h
  split at h
  · rename_i hnone
    rw [exec_mylockFunction_unlck] at h
    cases h
    refine reaction_ended (heeded_line hl) hbusy hopen (by decide) (by decide) rfl ?_
    rw [closing_data _ _ _ hne, if_pos hl, hnone]
    rfl
  · rename_i nums hsome
    simp only [Sys.exec] at h
    split at h
    · rename_i ho
      rw [exec_mylockFunction_unlck] at h
      cases h
      refine reaction_ended (heeded_line hl) hbusy hopen (by decide) (by decide) rfl ?_
      rw [closing_data _ _ _ hne, if_pos hl, hsome]
      exact if_pos ho
    · rename_i ho
      split at h
      · rename_i hu
        rw [exec_mylockFunction_unlck] at h
        cases h
        refine reaction_ended (heeded_line hl) hbusy hopen (by decide) (by decide) rfl ?_
        rw [closing_data _ _ _ hne, if_pos hl, hsome]
        exact (if_neg ho).trans (if_pos hu)
      · rename_i hu
        simp only [Sys.exec, exec_mylockFunction_unlck] at h
        cases h
        refine .ended (heeded_line hl) hbusy ?_ ?_
        · simp [afterRead_one, reply, hw, Closed, freeRequest, initRequest]
        · rw [closing_data _ _ _ hne, if_pos hl, hsome]
          simp [afterRead_one, reply, hw, ho, hu, send_open hopen]

/-- Every outcome of a call on an open connection. -/
theorem handle_reaction {b : Build} {r : ReadResult} (hs : SlotOk b reqP) (hopen : reqP.connFd ≠ -1)
    (h : (handleRead b r reqP sl).exec p s = (out, s')) : Reaction b reqP s.file r out := by
  have hcase := handleRead_case b r reqP sl
  generalize handleRead b r reqP sl = prog at h hcase
  cases hcase with
  | failed hr =>
    cases h
    exact .ignored hr
  | ended hr =>
    subst hr
    cases h
    cases hi : InSession b reqP with
    | false => exact reaction_refused heeded_end hi hopen (by decide) (by decide) rfl rfl
    | true => exact reaction_ended heeded_end hi hopen (by decide) (by decide) rfl rfl
  | @line bytes _ hne hr hline =>
    subst hr
    cases hline with
    | part hl hpart =>
      cases h
      exact .died ⟨bytes, rfl, hne, hl, hpart⟩
    | interrupt hl hctrl hid =>
      rw [exec_mylockFunction_unlck] at h
      cases h
      refine reaction_ended (heeded_interrupt hctrl) (hs.busy_of_id hid) hopen (by decide) (by decide)
        rfl ?_
      rw [closing_data _ _ _ hne, if_neg (by simp [hl])]
      rfl
    | interruptIdle hl hctrl hid =>
      cases h
      refine reaction_refused (heeded_interrupt hctrl) (hs.idle_of_id hid) hopen (by decide) (by decide)
        rfl ?_
      rw [refusal_data hne, if_neg (by simp [hl])]
      rfl
    | reader hl hb =>
      subst hb
      exact handleReader_reaction hne hl hopen h
    | writerId hl hb hw =>
      subst hb
      exact handleWriterId_reaction hne hl hw hopen h
    | writerCommand hl hb hw =>
      subst hb
      exact handleWriterCommand_reaction hne hl hw hopen h

end

/-! ## A connection -/

/-- What is sent on the connection. -/
def textsTo (fd : Nat) (ms : Sent) : List Text :=
  (ms.filter fun m => decide (m.1 = (fd : Int))).map Prod.snd

theorem textsTo_none {fd : Nat} {ms : Sent} (h : ∀ m ∈ ms, m.1 ≠ fd) : textsTo fd ms = [] := by
  have hfilter : ms.filter (fun m => decide (m.1 = (fd : Int))) = [] := by
    refine List.filter_eq_nil_iff.2 fun m hm => ?_
    simpa using h m hm
  rw [textsTo, hfilter]
  rfl

theorem textsTo_all (fd : Nat) (texts : List Text) : textsTo fd (texts.map ((fd : Int), ·)) = texts := by
  induction texts with
  | nil => rfl
  | cons t texts ih =>
    rw [textsTo] at ih ⊢
    simp [ih]

section

variable {P : Type} [DecidableEq P] [Fintype P] {build : P → Build} {w w' : World P} {p : P} {fd : Nat}
  {ws : List Word} {e : Event P}

/-- What the step reads from the connection `fd` of process `p`. -/
def saidAt (p : P) (fd : Nat) : Event P → List Word
  | .accept _ _ => []
  | .recv q j r => if q = p ∧ j = fd ∧ r ≠ .error then [.said r] else []

/-- What a step for the event from `w` to `w'` adds to the dialogue on the connection. -/
def wordsFrom (p : P) (fd : Nat) (e : Event P) (w w' : World P) : List Word :=
  saidAt p fd e ++ (textsTo fd ((w'.server p).sent.drop (w.server p).sent.length)).map .heard

def wordsAt (build : P → Build) (p : P) (fd : Nat) (w : World P) (a : Attempt P) : List Word :=
  match w.attempt build a with
  | none => []
  | some w' => wordsFrom p fd a.event w w'

def words (build : P → Build) (p : P) (fd : Nat) (tr : List (World P × Attempt P)) : List Word :=
  tr.flatMap fun x => wordsAt build p fd x.1 x.2

theorem wordsFrom_eq {ms : Sent} (hsent : (w'.server p).sent = (w.server p).sent ++ ms) :
    wordsFrom p fd e w w' = saidAt p fd e ++ (textsTo fd ms).map .heard := by
  rw [wordsFrom, hsent, List.drop_left]

theorem saidAt_other (h : ∀ r, e ≠ .recv p fd r) : saidAt p fd e = [] := by
  cases e with
  | accept q j => rfl
  | recv q j r =>
    refine if_neg ?_
    rintro ⟨rfl, rfl, -⟩
    exact h r rfl

theorem saidAt_self {r : ReadResult} (h : r ≠ .error) : saidAt p fd (.recv p fd r) = [.said r] :=
  if_pos ⟨rfl, rfl, h⟩

/-- A record stays as it is while a session on it is open. -/
theorem file_of_session {k : CInt} (hi : Inv build w) (hs : (w.server p).Session (build p) fd k)
    (h : w.step build e = some w') (he : ∀ r, e ≠ .recv p fd r) :
    w'.kernel.file k = w.kernel.file k := by
  cases hb : build p with
  | writer =>
    rw [hb] at hs
    exact file_of_writeSession hi ⟨hb, hs⟩ h he
  | reader =>
    rw [hb] at hs
    rw [file_acceptedAt hi h]
    cases ha : acceptedAt build w e with
    | none => rfl
    | some c =>
      obtain ⟨k', nums⟩ := c
      obtain ⟨q, fd', r, -, hw⟩ := commandAt_session h (acceptedAt_iff.1 ha).1
      have hk : k ≠ k' := by
        rintro rfl
        exact not_read_and_write hi ⟨hb, hs⟩ hw
      exact if_neg hk

theorem file_of_no_command {r : ReadResult} (hi : Inv build w)
    (h : w.step build (.recv p fd r) = some w')
    (hc : ∀ nums, commandOf (build p) ((w.server p).requestP fd) r ≠ some nums) :
    w'.kernel.file = w.kernel.file := by
  rw [file_acceptedAt hi h]
  cases ha : acceptedAt build w (.recv p fd r) with
  | none => rfl
  | some c =>
    obtain ⟨k, nums⟩ := c
    exact absurd (commandAt_recv.1 (acceptedAt_iff.1 ha).1).1 (hc nums)

/-- What has been said on the connection since it was accepted. An open session has been shown what is
in the file. The process may have died of the last chunk, or, if there has been such a thing, of a write
on the connection (`cut`). -/
structure Talk (build : P → Build) (w : World P) (p : P) (fd : Nat) (cut : Prop) (ws : List Word) :
    Prop where
  live : (w.server p).alive = true → ∃ shown,
    Dialogue (build p) ((w.server p).requestP fd) ws shown ∧ ∀ counts ∈ shown,
      counts = (w.kernel.file (((w.server p).requestP fd).id - HEAD)).bookingState
  dead : (w.server p).alive = false → ∃ ws' shown,
    Dialogue (build p) ((w.server p).requestP fd) ws' shown ∧
      (ws = ws' ∨ (∃ r, Fatal r ∧ ws = ws' ++ [.said r]) ∨ cut ∧ ∃ v vs, ws' = ws ++ v :: vs)

variable {cut cut' : Prop}

theorem Talk.mono (h : cut → cut') (ht : Talk build w p fd cut ws) : Talk build w p fd cut' ws := by
  refine ⟨ht.live, fun hd => ?_⟩
  obtain ⟨ws', shown, hdia, heq⟩ := ht.dead hd
  exact ⟨ws', shown, hdia, heq.imp_right (.imp_right (.imp_left h))⟩

theorem Dialogue.session {b : Build} {sv : Server} {counts : Fin 3 → CInt}
    (h : Dialogue b (sv.requestP fd) ws (some counts)) (ha : sv.alive = true) :
    sv.Session b fd ((sv.requestP fd).id - HEAD) := by
  cases h with
  | shown hopen hbusy _ => exact ⟨ha, hopen, hbusy, sub_add_head _⟩

theorem Talk.of_alive {shown : Option (Fin 3 → CInt)} (ha : (w.server p).alive = true)
    (hd : Dialogue (build p) ((w.server p).requestP fd) ws shown)
    (hs : ∀ counts ∈ shown,
      counts = (w.kernel.file (((w.server p).requestP fd).id - HEAD)).bookingState) :
    Talk build w p fd cut ws :=
  ⟨fun _ => ⟨shown, hd, hs⟩, fun hdead => absurd (ha.symm.trans hdead) (by simp)⟩

/-- Nothing is said. -/
theorem Talk.quiet (ht : Talk build w p fd cut ws)
    (hreq : (w'.server p).requestP fd = (w.server p).requestP fd)
    (hal : (w'.server p).alive = true → (w.server p).alive = true)
    (hfile : ∀ k, (w.server p).Session (build p) fd k → w'.kernel.file k = w.kernel.file k) :
    Talk build w' p fd cut ws := by
  constructor
  · intro ha
    obtain ⟨shown, hd, hs⟩ := ht.live (hal ha)
    rw [hreq]
    refine ⟨shown, hd, fun counts hc => ?_⟩
    have hsome : shown = some counts := hc
    rw [hsome] at hd
    rw [hfile _ (hd.session (hal ha))]
    exact hs counts hc
  · intro _
    rw [hreq]
    cases ha : (w.server p).alive with
    | true =>
      obtain ⟨shown, hd, -⟩ := ht.live ha
      exact ⟨ws, shown, hd, .inl rfl⟩
    | false => exact ht.dead ha

theorem accept_outcome (h : w.step build (.accept p fd) = some w') :
    (w.server p).canAccept fd = true ∧ w' = w.setServer p ((w.server p).accept (build p) fd) := by
  simp only [World.step] at h
  split at h
  · rename_i hc
    cases h
    exact ⟨hc, rfl⟩
  · cases h

theorem accept_sent (h : w.step build (.accept p fd) = some w') : (w'.server p).alive = true ∧
    (w'.server p).sent = (w.server p).sent ++ [promptMsg].map ((fd : Int), ·) := by
  obtain ⟨hc, rfl⟩ := accept_outcome h
  have hfd : (fd : Int) ≠ -1 := by omega
  rw [setServer_self]
  refine ⟨(canAccept_iff.1 hc).1, ?_⟩
  rw [Server.accept, send_open hfd]
  rfl

theorem talk_accept (h : w.step build (.accept p fd) = some w') :
    Talk build w' p fd cut (wordsFrom p fd (.accept p fd) w w') := by
  obtain ⟨hal, hsent⟩ := accept_sent h
  have hreq : (w'.server p).requestP fd = acceptRequest (build p) fd ((w.server p).requestP fd) := by
    rw [(accept_outcome h).2, setServer_self]
    exact if_pos rfl
  have hidle : InSession (build p) ((w'.server p).requestP fd) = false := by
    rw [hreq]
    cases hb : build p with
    | reader => rfl
    | writer => rfl
  have hopen : ((w'.server p).requestP fd).connFd ≠ -1 := by
    rw [hreq]
    exact (by omega : (fd : Int) ≠ -1)
  rw [wordsFrom_eq hsent, textsTo_all]
  exact .of_alive hal (.asked hopen hidle) (by simp)

/-- What a call of `handle_read` does to its server. -/
theorem recv_outcome {r : ReadResult} (h : w.step build (.recv p fd r) = some w') :
    (w.server p).canServe fd = true ∧ ∃ out s, w.handle build p fd r = (out, s) ∧
      w'.server p = (w.server p).finish (build p) fd out := by
  simp only [World.step] at h
  split at h
  · rename_i hc
    cases hx : w.handle build p fd r with
    | mk out s =>
      rw [hx] at h
      cases h
      exact ⟨hc, out, s, rfl, setServer_self⟩
  · cases h

/-- A step that is not on the connection adds nothing to what was said there. -/
theorem step_elsewhere (hi : Inv build w) (hs : Shows build w) (h : w.step build e = some w')
    (ha : e ≠ .accept p fd) (he : ∀ r, e ≠ .recv p fd r) :
    (w'.server p).requestP fd = (w.server p).requestP fd ∧
      ((w'.server p).alive = true → (w.server p).alive = true) ∧ wordsFrom p fd e w w' = [] := by
  have hquiet : ∀ ms : Sent, (w'.server p).sent = (w.server p).sent ++ ms → (∀ m ∈ ms, m.1 ≠ fd) →
      wordsFrom p fd e w w' = [] := fun ms hsent hms => by
    rw [wordsFrom_eq hsent, saidAt_other he, textsTo_none hms]
    rfl
  have hsame : w'.server p = w.server p → (w'.server p).requestP fd = (w.server p).requestP fd ∧
      ((w'.server p).alive = true → (w.server p).alive = true) ∧ wordsFrom p fd e w w' = [] := by
    intro heq
    rw [heq]
    exact ⟨rfl, id, hquiet [] (by rw [heq, List.append_nil]) (by simp)⟩
  cases e with
  | accept q j =>
    obtain ⟨-, rfl⟩ := accept_outcome h
    by_cases hq : p = q
    · subst hq
      have hj : fd ≠ j := fun hc => ha (by rw [hc])
      have hsent : ((w.setServer p ((w.server p).accept (build p) j)).server p).sent =
          (w.server p).sent ++ send j promptMsg := by
        rw [setServer_self]
        rfl
      rw [setServer_self]
      refine ⟨if_neg hj, id, hquiet _ hsent fun m hm => ?_⟩
      rw [(mem_send hm).1]
      exact fun hc => hj (Int.ofNat.inj hc.symm)
    · exact hsame (setServer_of_ne hq)
  | recv q j r =>
    by_cases hq : p = q
    · subst hq
      have hj : fd ≠ j := fun hc => he r (by rw [hc])
      obtain ⟨hc, out, s, hx, hsv⟩ := recv_outcome h
      have hphase := (handleRead_ends (build p) r ((w.server p).requestP j)
        (w.server p).selfLock).exec p (s := w.kernel)
      change SamePhase _ (w.handle build p j r).1 at hphase
      rw [hx] at hphase
      cases out with
      | exit =>
        have hsent : (w'.server p).sent = (w.server p).sent ++ [] := by
          rw [hsv, List.append_nil]
          rfl
        rw [hsv]
        exact ⟨rfl, fun hd => absurd hd Bool.false_ne_true, hquiet [] hsent (by simp)⟩
      | ret val q sl =>
        have hsent : (w'.server p).sent = (w.server p).sent ++ (afterRead (build p) val q).2 := by
          rw [hsv]
          rfl
        rw [hsv]
        refine ⟨if_neg hj, id, hquiet _ hsent fun m hm => ?_⟩
        rw [mem_afterRead hm, hphase.1, hs.conn p j (canServe_iff.1 hc).2.2.2]
        exact fun hc => hj (Int.ofNat.inj hc.symm)
    · obtain ⟨a, hcase, hother⟩ := step_cases hi h
      have haq : a = q := hcase.process
      exact hsame (hother p (haq ▸ hq))

theorem Talk.elsewhere (ht : Talk build w p fd cut ws) (hi : Inv build w) (hs : Shows build w)
    (h : w.step build e = some w') (ha : e ≠ .accept p fd) (he : ∀ r, e ≠ .recv p fd r) :
    Talk build w' p fd cut (ws ++ wordsFrom p fd e w w') := by
  obtain ⟨hreq, hal, hwords⟩ := step_elsewhere hi hs h ha he
  rw [hwords, List.append_nil]
  exact ht.quiet hreq hal fun k hk => file_of_session hi hk h he

theorem Dialogue.of_idle {b : Build} {reqP : Request} {shown : Option (Fin 3 → CInt)}
    (h : Dialogue b reqP ws shown) (hopen : reqP.connFd ≠ -1) (hidle : InSession b reqP = false) :
    ws = [.heard promptMsg] := by
  cases h with
  | asked _ _ => rfl
  | shown _ hbusy _ => exact absurd (hbusy.symm.trans hidle) (by simp)
  | refused hc _ => exact absurd hc.1 hopen
  | ended hc _ _ => exact absurd hc.1 hopen

theorem Dialogue.of_busy {b : Build} {reqP : Request} {shown : Option (Fin 3 → CInt)}
    (h : Dialogue b reqP ws shown) (hopen : reqP.connFd ≠ -1) (hbusy : InSession b reqP = true) :
    ∃ r counts, IdLine r reqP.id ∧ shown = some counts ∧
      ws = [.heard promptMsg, .said r, .heard (listing counts), .heard b.follow] := by
  cases h with
  | asked _ hidle => exact absurd (hbusy.symm.trans hidle) (by simp)
  | @shown r counts _ _ hid => exact ⟨r, counts, hid, rfl, rfl⟩
  | refused hc _ => exact absurd hc.1 hopen
  | ended hc _ _ => exact absurd hc.1 hopen

theorem commandOf_idle {b : Build} {reqP : Request} {r : ReadResult} (h : InSession b reqP = false)
    (nums : Fin 3 → CInt) : commandOf b reqP r ≠ some nums := by
  have hguard : ¬ (b = .writer ∧ reqP.waitForWrite = false) := by
    rintro ⟨rfl, hw⟩
    simp [InSession, hw] at h
  cases r with
  | error => simp [commandOf]
  | data bytes =>
    cases bytes with
    | nil => simp [commandOf]
    | cons c cs =>
      rw [commandOf_data (List.cons_ne_nil c cs), if_neg fun hc => hguard ⟨hc.1, hc.2.1⟩]
      simp

/-- A call that returns to `main`. -/
theorem served_at {b : Build} {val : Int} {q : Request} {sl : SelfLock}
    (h : w'.server p = (w.server p).finish b fd (.ret val q sl)) :
    (w'.server p).alive = (w.server p).alive ∧
      (w'.server p).requestP fd = (afterRead b val q).1 ∧
      (w'.server p).sent = (w.server p).sent ++ (afterRead b val q).2 := by
  rw [h]
  exact ⟨rfl, if_pos rfl, rfl⟩

theorem wordsFrom_answered {r : ReadResult} {texts : List Text} (hr : r ≠ .error)
    (hsent : (w'.server p).sent = (w.server p).sent ++ texts.map ((fd : Int), ·)) :
    wordsFrom p fd (.recv p fd r) w w' = .said r :: texts.map .heard := by
  rw [wordsFrom_eq hsent, textsTo_all, saidAt_self hr]
  rfl

/-- One case for each reaction. -/
theorem Talk.recv {r : ReadResult} (ht : Talk build w p fd cut ws) (hi : Inv build w) (hs : Shows build w)
    (h : w.step build (.recv p fd r) = some w') :
    Talk build w' p fd cut (ws ++ wordsFrom p fd (.recv p fd r) w w') := by
  obtain ⟨hc, out, s, hx, hsv⟩ := recv_outcome h
  obtain ⟨hal, -, -, hopen⟩ := canServe_iff.1 hc
  have hconn := hs.conn p fd hopen
  obtain ⟨shown, hd, hshown⟩ := ht.live hal
  have hreact := handle_reaction ((hi.alive p hal).slot fd hopen) hopen hx
  cases hreact with
  | died hr =>
    have hsent : (w'.server p).sent = (w.server p).sent ++ ([] : List Text).map ((fd : Int), ·) := by
      rw [hsv]
      simp [Server.finish]
    rw [wordsFrom_answered hr.ne_error hsent]
    refine ⟨fun ha => ?_, fun _ => ⟨ws, shown, ?_, .inr (.inl ⟨r, hr, rfl⟩)⟩⟩
    · rw [hsv] at ha
      cases ha
    · rw [hsv]
      exact hd
  | ignored hr =>
    subst hr
    obtain ⟨-, hreq, hsent⟩ := served_at hsv
    have hwords : wordsFrom p fd (.recv p fd .error) w w' = [] := by
      rw [wordsFrom_eq hsent]
      exact List.append_eq_nil_iff.2 ⟨if_neg fun hc => hc.2.2 rfl, rfl⟩
    rw [hwords, List.append_nil]
    refine ht.quiet (hreq.trans (afterRead_failed _ _)) (fun _ => hal) fun k _ => ?_
    rw [file_of_no_command hi h fun nums => by simp [commandOf]]
  | refused hr hidle hcl htexts =>
    obtain ⟨hal', hreq, hsent⟩ := served_at hsv
    rw [htexts, hconn] at hsent
    rw [← hreq] at hcl
    rw [wordsFrom_answered hr.1 hsent, hd.of_idle hopen hidle]
    exact .of_alive (hal'.trans hal) (.refused hcl hr) (by simp)
  | @opened val q sl hidle hid hq hbusy htexts =>
    obtain ⟨hal', hreq, hsent⟩ := served_at hsv
    have hr : r ≠ .error := by
      obtain ⟨bytes, rfl, -⟩ := hid
      exact data_ne_error bytes
    have hopen' : (afterRead (build p) val q).1.connFd ≠ -1 := hq ▸ hopen
    rw [← hreq] at hid hopen' hbusy htexts
    have hmap : (w'.server p).sent = (w.server p).sent ++
        [listing (w.kernel.file (((w'.server p).requestP fd).id - HEAD)).bookingState,
          (build p).follow].map ((fd : Int), ·) := by
      rw [hsent, ← hconn]
      exact congrArg _ htexts
    rw [wordsFrom_answered hr hmap, hd.of_idle hopen hidle]
    refine .of_alive (hal'.trans hal) (.shown hopen' hbusy hid) fun counts hcounts => ?_
    cases hcounts
    rw [file_of_no_command hi h (commandOf_idle hidle)]
  | ended hr hbusy hcl htexts =>
    obtain ⟨r0, counts, hid, rfl, rfl⟩ := hd.of_busy hopen hbusy
    obtain ⟨hal', hreq, hsent⟩ := served_at hsv
    rw [htexts, hconn] at hsent
    rw [← hreq] at hcl
    rw [wordsFrom_answered hr.1 hsent, ← hshown counts rfl]
    exact .of_alive (hal'.trans hal) (.ended hcl hid hr) (by simp)

theorem Talk.step (ht : Talk build w p fd cut ws) (hi : Inv build w) (hs : Shows build w)
    (h : w.step build e = some w') (ha : e ≠ .accept p fd) :
    Talk build w' p fd cut (ws ++ wordsFrom p fd e w w') := by
  by_cases he : ∀ r, e ≠ .recv p fd r
  · exact ht.elsewhere hi hs h ha he
  · push Not at he
    obtain ⟨r, rfl⟩ := he
    exact ht.recv hi hs h

/-! ## SIGPIPE -/

/-- The write is one on the connection. -/
def Attempt.Cuts (p : P) (fd : Nat) (a : Attempt P) : Prop :=
  a.broken ≠ none ∧ (a.event = .accept p fd ∨ ∃ r, a.event = .recv p fd r)

/-- All that a call sends goes to its own connection. -/
theorem recv_texts {r : ReadResult} (hs : Shows build w) (h : w.step build (.recv p fd r) = some w') :
    ∃ texts : List Text, (w'.server p).sent = (w.server p).sent ++ texts.map ((fd : Int), ·) ∧
      (texts ≠ [] → (w'.server p).alive = true) := by
  obtain ⟨hc, out, s, hx, hsv⟩ := recv_outcome h
  obtain ⟨hal, -, -, hopen⟩ := canServe_iff.1 hc
  have hphase := (handleRead_ends (build p) r ((w.server p).requestP fd)
    (w.server p).selfLock).exec p (s := w.kernel)
  change SamePhase _ (w.handle build p fd r).1 at hphase
  rw [hx] at hphase
  cases out with
  | exit =>
    refine ⟨[], ?_, fun hne => absurd rfl hne⟩
    rw [hsv]
    exact (List.append_nil _).symm
  | ret val q sl =>
    obtain ⟨hal', -, hsent⟩ := served_at hsv
    refine ⟨(afterRead (build p) val q).2.map Prod.snd, ?_, fun _ => hal'.trans hal⟩
    have hall : ∀ m ∈ (afterRead (build p) val q).2, ((fd : Int), m.2) = id m := by
      intro m hm
      have hfd : m.1 = fd := by rw [mem_afterRead hm, hphase.1, hs.conn p fd hopen]
      rw [← hfd]
      rfl
    rw [hsent, List.map_map]
    exact congrArg _ ((List.map_congr_left hall).trans (List.map_id _)).symm

/-- The answer is cut short, and the process is gone. -/
theorem Talk.kill {texts : List Text} {n : Nat}
    (ht : Talk build w' p fd cut (ws ++ wordsFrom p fd e w w')) (hal : (w'.server p).alive = true)
    (hsent : (w'.server p).sent = (w.server p).sent ++ texts.map ((fd : Int), ·)) (hn : n < texts.length) :
    Talk build (w.cutShort w' p n) p fd True (ws ++ wordsFrom p fd e w (w.cutShort w' p n)) := by
  obtain ⟨shown, hd, -⟩ := ht.live hal
  have hsent' : ((w.cutShort w' p n).server p).sent =
      (w.server p).sent ++ (texts.take n).map ((fd : Int), ·) := by
    rw [World.cutShort, kill_self, hsent, List.take_length_add_append, List.map_take]
  constructor
  · intro ha
    exact absurd rfl (kill_alive ha).1
  · intro _
    have hreq : ((w.cutShort w' p n).server p).requestP fd = (w'.server p).requestP fd := kill_request fd
    rw [hreq]
    refine ⟨_, shown, hd, .inr (.inr ⟨trivial, ?_⟩)⟩
    rw [wordsFrom_eq hsent, wordsFrom_eq hsent', textsTo_all, textsTo_all]
    have hdrop : texts.drop n = texts[n] :: texts.drop (n + 1) := List.drop_eq_getElem_cons hn
    refine ⟨.heard texts[n], (texts.drop (n + 1)).map .heard, ?_⟩
    rw [← List.map_cons, ← hdrop, List.append_assoc, List.append_assoc, ← List.map_append,
      List.take_append_drop]

/-- The process of another connection is gone. -/
theorem Talk.kill_other {q : P} {sent : Sent} (hq : p ≠ q) (ht : Talk build w' p fd cut ws) :
    Talk build (w'.kill q sent) p fd cut ws := by
  have hsv : (w'.kill q sent).server p = w'.server p := kill_of_ne hq
  refine ⟨fun ha => ?_, fun hd => ?_⟩
  · rw [hsv] at ha ⊢
    exact ht.live ha
  · rw [hsv] at hd ⊢
    exact ht.dead hd

/-- The process has written to another connection whose client is gone. -/
theorem Talk.kill_elsewhere {n : Nat} (ht : Talk build w p fd cut ws) (hi : Inv build w)
    (hs : Shows build w) (h : w.step build e = some w') (ha : e ≠ .accept p fd)
    (he : ∀ r, e ≠ .recv p fd r) :
    Talk build (w.cutShort w' p n) p fd cut (ws ++ wordsFrom p fd e w (w.cutShort w' p n)) := by
  obtain ⟨hreq, -, hwords⟩ := step_elsewhere hi hs h ha he
  have hnone : textsTo fd ((w'.server p).sent.drop (w.server p).sent.length) = [] :=
    List.map_eq_nil_iff.1 (List.append_eq_nil_iff.1 hwords).2
  have hcut : ((w.cutShort w' p n).server p).sent.drop (w.server p).sent.length =
      ((w'.server p).sent.drop (w.server p).sent.length).take n := by
    rw [World.cutShort, kill_self, List.drop_take, Nat.add_sub_cancel_left]
  have hwords' : wordsFrom p fd e w (w.cutShort w' p n) = [] := by
    rw [wordsFrom, hcut, saidAt_other he]
    have hms : ∀ m ∈ (w'.server p).sent.drop (w.server p).sent.length, m.1 ≠ fd := by
      intro m hm hfd
      have hmem : m.2 ∈ textsTo fd ((w'.server p).sent.drop (w.server p).sent.length) :=
        List.mem_map_of_mem (List.mem_filter.2 ⟨hm, decide_eq_true hfd⟩)
      rw [hnone] at hmem
      cases hmem
    rw [textsTo_none fun m hm => hms m (List.mem_of_mem_take hm)]
    rfl
  rw [hwords', List.append_nil]
  refine ht.quiet ?_ (fun hk => absurd rfl (kill_alive hk).1) fun k hk => ?_
  · rw [World.cutShort, kill_request, hreq]
  · rw [World.cutShort, kill_file]
    exact file_of_session hi hk h he

theorem talk_accept_attempt {broken : Option Nat}
    (h : w.attempt build ⟨.accept p fd, broken⟩ = some w') :
    Talk build w' p fd (Attempt.Cuts p fd ⟨.accept p fd, broken⟩)
      (wordsFrom p fd (.accept p fd) w w') := by
  rcases attempt_cases h with ⟨-, hstep⟩ | ⟨n, w1, hb, hstep, hlt, rfl⟩
  · exact talk_accept hstep
  · obtain ⟨hal, hsent⟩ := accept_sent hstep
    have hlt : (w.server p).sent.length + n < (w1.server p).sent.length := hlt
    have hn : n < [promptMsg].length := by
      rw [hsent, List.length_append, List.length_map] at hlt
      omega
    have hcuts : Attempt.Cuts p fd ⟨.accept p fd, broken⟩ := ⟨by rw [hb]; simp, .inl rfl⟩
    have ht : Talk build w1 p fd False ([] ++ wordsFrom p fd (.accept p fd) w w1) := talk_accept hstep
    exact (ht.kill hal hsent hn).mono fun _ => hcuts

theorem Talk.attempt {a : Attempt P} (ht : Talk build w p fd cut ws) (hi : Inv build w)
    (hs : Shows build w) (h : w.attempt build a = some w') (ha : a.event ≠ .accept p fd) :
    Talk build w' p fd (cut ∨ a.Cuts p fd) (ws ++ wordsFrom p fd a.event w w') := by
  obtain ⟨e, broken⟩ := a
  rcases attempt_cases h with ⟨-, hstep⟩ | ⟨n, w1, hb, hstep, hlt, rfl⟩
  · exact (ht.step hi hs hstep ha).mono .inl
  · have ht1 := ht.step hi hs hstep ha
    by_cases hq : p = e.process
    · subst hq
      by_cases he : ∀ r, e ≠ .recv e.process fd r
      · exact (ht.kill_elsewhere hi hs hstep ha he).mono .inl
      · push Not at he
        obtain ⟨r, hr⟩ := he
        have hcuts : Attempt.Cuts e.process fd ⟨e, broken⟩ := ⟨by rw [hb]; simp, .inr ⟨r, hr⟩⟩
        obtain ⟨texts, hsent, hal⟩ := recv_texts hs (hr ▸ hstep)
        have hlt : (w.server e.process).sent.length + n < (w1.server e.process).sent.length := hlt
        have hn : n < texts.length := by
          rw [hsent, List.length_append, List.length_map] at hlt
          omega
        have hne : texts ≠ [] := List.ne_nil_of_length_pos (by omega)
        exact (ht1.kill (hal hne) hsent hn).mono fun _ => .inr hcuts
    · have hother : wordsFrom p fd e w (w.cutShort w1 e.process n) = wordsFrom p fd e w w1 := by
        rw [wordsFrom, World.cutShort, kill_of_ne hq, wordsFrom]
      rw [hother]
      exact (ht1.kill_other hq).mono .inl

/-- From its accept to the end of the run, until the descriptor is given to another connection, what
is said on a connection is one of the dialogues, and the slot is where that dialogue has led. -/
theorem dialogue {w0 w1 w2 : World P} {broken : Option Nat} {tr : List (World P × Attempt P)}
    (h0 : w0.Init) (h1 : Reachable (World.attempt build) w0 w1)
    (ha : w1.attempt build ⟨.accept p fd, broken⟩ = some w2) (h2 : Run (World.attempt build) w2 tr w)
    (hno : ∀ x ∈ tr, x.2.event ≠ .accept p fd) :
    Talk build w p fd (∃ x ∈ (w1, ⟨.accept p fd, broken⟩) :: tr, x.2.Cuts p fd)
      (words build p fd ((w1, ⟨.accept p fd, broken⟩) :: tr)) := by
  have hr2 : Reachable (World.attempt build) w0 w2 := h1.tail ha
  -- on the run after the accept; the words grow at their end
  induction h2 with
  | nil =>
    have ht := talk_accept_attempt ha
    simpa [words, wordsAt, ha] using ht
  | @snoc s3 s4 tr a hrun hstep ih =>
    have hr : Reachable (World.attempt build) w0 s3 := by
      obtain ⟨tr0, hrun0⟩ := hr2
      exact ⟨_, hrun0.trans hrun⟩
    obtain ⟨hi, hs⟩ := reachable_attempt h0 hr
    have ht := ih fun x hx => hno x (List.mem_append_left _ hx)
    have hstep' := ht.attempt hi hs hstep
      (hno (s3, a) (List.mem_append_right _ (List.mem_singleton_self _)))
    have hsnoc : words build p fd ((w1, ⟨.accept p fd, broken⟩) :: (tr ++ [(s3, a)])) =
        words build p fd ((w1, ⟨.accept p fd, broken⟩) :: tr) ++ wordsFrom p fd a.event s3 s4 := by
      simp [words, wordsAt, hstep]
    rw [hsnoc]
    refine hstep'.mono ?_
    rintro (⟨x, hx, hc⟩ | hc)
    · refine ⟨x, ?_, hc⟩
      rw [← List.cons_append]
      exact List.mem_append_left _ hx
    · refine ⟨(s3, a), ?_, hc⟩
      rw [← List.cons_append]
      exact List.mem_append_right _ (List.mem_singleton_self _)

end

/-- A client of the only server, a write server. -/
def connected : World (Fin 1) :=
  (World.step (fun _ => .writer) (freshWorld (Fin 1)) (.accept 0 5)).getD (freshWorld (Fin 1))

/-- It sends the id of the first record, and orders. -/
def orders : List (Attempt (Fin 1)) :=
  [⟨.recv 0 5 (.data "902001\r\n".toList), none⟩, ⟨.recv 0 5 (.data "1 2 3\r\n".toList), none⟩]

theorem orders_words :
    words (fun _ => .writer) 0 5 ((freshWorld (Fin 1), ⟨.accept 0 5, none⟩) ::
        traceOf (World.attempt fun _ => .writer) connected orders) =
      [.heard promptMsg, .said (.data "902001\r\n".toList), .heard (listing fun _ => 0),
        .heard commandMsg, .said (.data "1 2 3\r\n".toList), .heard (updatedMsg 902001),
        .heard (bookings ![1, 2, 3])] := by
  decide +kernel

theorem dialogue_booked :
    Talk (fun _ => .writer)
      ((runEvents (World.attempt fun _ => .writer) connected orders).getD connected) 0 5
      (∃ x ∈ (freshWorld (Fin 1), ⟨.accept 0 5, none⟩) ::
        traceOf (World.attempt fun _ => .writer) connected orders, x.2.Cuts 0 5)
      [.heard promptMsg, .said (.data "902001\r\n".toList), .heard (listing fun _ => 0),
        .heard commandMsg, .said (.data "1 2 3\r\n".toList), .heard (updatedMsg 902001),
        .heard (bookings ![1, 2, 3])] := by
  rw [← orders_words]
  refine dialogue (freshWorld_init _) .refl rfl (run_getD rfl) fun x hx => ?_
  have hmem : x.2 ∈ orders := mem_traceOf x hx
  rcases List.mem_cons.1 hmem with h | h
  · rw [h]
    simp
  · rw [List.mem_singleton.1 h]
    simp

/-- The client is gone when the second message of the answer to its id is written. -/
example : words (fun _ => .writer) 0 5 ((freshWorld (Fin 1), ⟨.accept 0 5, none⟩) ::
    traceOf (World.attempt fun _ => .writer) connected
      [⟨.recv 0 5 (.data "902001\r\n".toList), some 1⟩]) =
    [.heard promptMsg, .said (.data "902001\r\n".toList), .heard (listing fun _ => 0)] := by
  decide +kernel

end SysProg.Booking
