import SysProg.Tournament.Logs

/-!
# SysProg.Tournament.Mirror

The logs of the two ends of a pipe or FIFO tell the same.

* `pipe_text`, `fifo_text`: a line and its counterpart name each other, whichever tables the names come
  from.
* `shownOn`: the statuses that a process has logged for a channel.
* `Tells`: what all that has been logged says of the channels.
* `drained`: in the end all channels are empty.
* `logs_mirror`: what the reader has logged is a beginning of what the writer has logged, and in the
  end the same, with nothing left unread.
-/

namespace SysProg.Tournament

variable {p q : Proc} {c : Chan} {k : PlayerId} {d : Dir} {v : Status}

/-! ## The two ends of a line -/

/-- `parent_table` and `which_target` against `child_name`. -/
theorem target_child (b : Battle) (i : Bool) : (child b i).target = b.letter := by
  cases b <;> cases i <;> rfl

/-- How a process appears in a log. -/
def Proc.mark (pid : Proc → Int) (p : Proc) : Text := p.name ++ ',' :: showD (pid p)

def Status.shown (v : Status) : Text :=
  showD v.realPlayerId ++ ',' :: showD v.HP ++ [',', v.currentBattleId, ','] ++ showD v.battleEndedFlag

def pipeLine (pid : Proc → Int) (p q : Proc) (d : Dir) (v : Status) : Text :=
  p.mark pid ++ " pipe ".toList ++ d.word ++ q.mark pid ++ ' ' :: v.shown ++ ['\n']

/-- Nothing is said of the process at the other end but its name. -/
def fifoLine (pid : Proc → Int) (p q : Proc) (d : Dir) (v : Status) : Text :=
  p.mark pid ++ " fifo ".toList ++ d.word ++ q.name ++ ' ' :: showD v.realPlayerId ++ ',' :: showD v.HP ++
    ['\n']

theorem child_ne_parent (b : Battle) (i : Bool) : child b i ≠ .battle b := by
  cases b <;> cases i <;> decide

theorem pipe_text (pid : Proc → Int) (b : Battle) (i : Bool) (d : Dir) (v : Status) :
    ∀ c ∈ [Chan.stdin (child b i), Chan.stdout (child b i)],
      (⟨child b i, d, c, v⟩ : LogLine).text pid = pipeLine pid (child b i) (.battle b) d v ∧
        (⟨.battle b, d, c, v⟩ : LogLine).text pid = pipeLine pid (.battle b) (child b i) d v := by
  have hne := child_ne_parent b i
  have hroot := child_ne_root b i
  intro c hc
  simp only [List.mem_cons, List.not_mem_nil, or_false] at hc
  rcases hc with rfl | rfl
  · constructor
    · simp [LogLine.text, LogLine.peer, pipeLine, Proc.mark, Status.shown, target_child, ppid, hroot,
        Proc.name]
    · simp [LogLine.text, LogLine.peer, pipeLine, Proc.mark, Status.shown, hne]
  · constructor
    · simp [LogLine.text, LogLine.peer, pipeLine, Proc.mark, Status.shown, target_child, ppid, hroot,
        Proc.name]
    · simp [LogLine.text, LogLine.peer, pipeLine, Proc.mark, Status.shown, hne]

theorem fifo_text (pid : Proc → Int) (p q : Proc) (v : Status) (hq : q.name = showD v.realPlayerId) :
    (⟨p, .sent, .fifo k, v⟩ : LogLine).text pid = fifoLine pid p (.player k) .sent v ∧
      (⟨.player k, .received, .fifo k, v⟩ : LogLine).text pid = fifoLine pid (.player k) q .received v := by
  constructor
  · simp [LogLine.text, LogLine.peer, fifoLine, Proc.mark, Proc.name]
  · simp [LogLine.text, LogLine.peer, fifoLine, Proc.mark, hq]

/-! ## What has been logged for a channel -/

def shownOn (p : Proc) (d : Dir) (c : Chan) (xs : List LogLine) : List Status :=
  (xs.filter fun x => x.id = p ∧ x.dir = d ∧ x.chan = c).map LogLine.status

section

variable {xs ys : List LogLine} {L : Type} {a : Kahn.Action Chan Flag Status L} {u : Option Status}

@[simp] theorem shownOn_nil : shownOn p d c [] = [] := rfl

@[simp] theorem shownOn_append : shownOn p d c (xs ++ ys) = shownOn p d c xs ++ shownOn p d c ys := by
  simp [shownOn]

theorem shownOn_eq_nil (h : ∀ x ∈ xs, x.id = p → x.dir = d → x.chan ≠ c) : shownOn p d c xs = [] := by
  rw [shownOn, List.filter_eq_nil_iff.2, List.map_nil]
  intro x hx hp
  obtain ⟨h₁, h₂, h₃⟩ := of_decide_eq_true hp
  exact h x hx h₁ h₂ h₃

theorem announced_sent : ∀ x ∈ announced p a, x.id = p ∧ x.dir = .sent := by
  intro x hx
  cases a with
  | send c v l =>
    rw [announced, List.mem_singleton] at hx
    subst hx
    exact ⟨rfl, rfl⟩
  | _ => cases hx

theorem noted_received : ∀ x ∈ noted p a u, x.id = p ∧ x.dir = .received := by
  intro x hx
  cases a with
  | recv c k =>
    cases u with
    | none => cases hx
    | some v =>
      rw [noted, List.mem_singleton] at hx
      subst hx
      exact ⟨rfl, rfl⟩
  | _ => cases u <;> cases hx

theorem received_announced : shownOn p .received c (announced p a) = [] := by
  refine shownOn_eq_nil fun x hx _ hd => ?_
  rw [(announced_sent x hx).2] at hd
  cases hd

theorem sent_noted : shownOn p .sent c (noted p a u) = [] := by
  refine shownOn_eq_nil fun x hx _ hd => ?_
  rw [(noted_received x hx).2] at hd
  cases hd

theorem received_noted (h : ∀ k, a ≠ .recv c k) : shownOn p .received c (noted p a u) = [] := by
  cases a with
  | recv c' k =>
    cases u with
    | none => rfl
    | some v =>
      refine shownOn_eq_nil fun x hx _ _ hc => ?_
      rw [noted, List.mem_singleton] at hx
      subst hx
      have hc : c' = c := hc
      exact h k (by rw [hc])
  | _ => cases u <;> rfl

theorem sent_announced (h : ∀ v l, a ≠ .send c v l) : shownOn p .sent c (announced p a) = [] := by
  cases a with
  | send c' v l =>
    refine shownOn_eq_nil fun x hx _ _ hc => ?_
    rw [announced, List.mem_singleton] at hx
    subst hx
    have hc : c' = c := hc
    exact h v l (by rw [hc])
  | _ => rfl

end

section

variable [Arith] {file : List Line} {hg : GoodFile file} {b : Battle}

/-- The lines of `m` against the channels of `s`. -/
structure Tells (file : List Line) (s : State) (m : Proc → Log) : Prop where
  id : ∀ p, ∀ x ∈ (m p).owed, x.id = p
  received : ∀ c, shownOn (rcv c) .received c (m (rcv c)).owed = s.taken c
  sent : ∀ c, shownOn (snd file c) .sent c (m (snd file c)).owed = Kahn.sent s c ++
    shownOn (snd file c) .sent c (announced (snd file c) (prog file (snd file c) (s.loc (snd file c))))

section

variable {s s' : State} {m : Proc → Log}

theorem recorded_self : (Kahn.recorded (grow file) (prog file) s s' m p p).owed = (m p).owed ++
    noted p (prog file p (s.loc p)) (Kahn.heard s (prog file p (s.loc p))) ++
      announced p (prog file p (s'.loc p)) := by
  rw [Kahn.recorded, Function.update_self]
  rfl

theorem recorded_of_ne (h : q ≠ p) : Kahn.recorded (grow file) (prog file) s s' m p q = m q :=
  Function.update_of_ne h ..

theorem owns (h : (script file hg).Holds s) (p : Proc) :
    Kahn.Owns (snd file) rcv p (prog file p (s.loc p)) := (script file hg).owns (h.part p)

theorem received_step (h : (script file hg).Holds s) (ht : Tells file s m)
    (hs : Kahn.step (prog file) s p = some s') (c : Chan) :
    shownOn (rcv c) .received c (Kahn.recorded (grow file) (prog file) s s' m p (rcv c)).owed =
      s'.taken c := by
  rcases Kahn.taken_cases hs c with ⟨he, hno⟩ | ⟨k, v, hk, hv, he, -⟩
  · rw [he, ← ht.received c]
    by_cases hp : rcv c = p
    · subst hp
      simp [recorded_self, received_noted hno, received_announced]
    · rw [recorded_of_ne hp]
  · have ho := owns h p
    rw [hk] at ho
    have hp : rcv c = p := ho
    subst hp
    have h₁ : shownOn (rcv c) .received c (noted (rcv c) (prog file (rcv c) (s.loc (rcv c)))
        (Kahn.heard s (prog file (rcv c) (s.loc (rcv c))))) = [v] := by
      rw [hk, Kahn.heard, hv]
      simp [noted, shownOn]
    rw [he, ← ht.received c, recorded_self, shownOn_append, shownOn_append, h₁, received_announced,
      List.append_nil]

theorem sent_step (h : (script file hg).Holds s) (ht : Tells file s m)
    (hs : Kahn.step (prog file) s p = some s') (c : Chan) :
    shownOn (snd file c) .sent c (Kahn.recorded (grow file) (prog file) s s' m p (snd file c)).owed =
      Kahn.sent s' c ++ shownOn (snd file c) .sent c
        (announced (snd file c) (prog file (snd file c) (s'.loc (snd file c)))) := by
  have hc := ht.sent c
  rcases Kahn.sent_cases hs c with ⟨he, hno⟩ | ⟨v, l, hl, he, -⟩
  · rw [he]
    by_cases hp : snd file c = p
    · subst hp
      rw [sent_announced hno, List.append_nil] at hc
      simp [recorded_self, sent_noted, hc]
    · rw [recorded_of_ne hp, Kahn.step_loc_of_ne hs hp, hc]
  · have ho := owns h p
    rw [hl] at ho
    have hp : snd file c = p := ho
    subst hp
    have h₁ : shownOn (snd file c) .sent c (announced (snd file c)
        (prog file (snd file c) (s.loc (snd file c)))) = [v] := by
      rw [hl]
      simp [announced, shownOn]
    rw [h₁] at hc
    simp [recorded_self, sent_noted, hc, he]

theorem tells_step (h : (script file hg).Holds s) (ht : Tells file s m)
    (hs : Kahn.step (prog file) s p = some s') :
    Tells file s' (Kahn.recorded (grow file) (prog file) s s' m p) where
  id q x hx := by
    by_cases hq : q = p
    · subst hq
      rw [recorded_self, List.mem_append, List.mem_append] at hx
      rcases hx with (hx | hx) | hx
      · exact ht.id q x hx
      · exact (noted_received x hx).1
      · exact (announced_sent x hx).1
    · rw [recorded_of_ne hq] at hx
      exact ht.id q x hx
  received := received_step h ht hs
  sent := sent_step h ht hs

theorem tells_start : Tells file start fun _ => .closed where
  id p x hx := by cases hx
  received c := rfl
  sent c := by
    have h : announced (snd file c) (prog file (snd file c) (start.loc (snd file c))) = [] := by
      cases snd file c with
      | battle b => rfl
      | player k => rfl
    rw [h]
    rfl

theorem tells_reachable (hg : GoodFile file)
    (hr : Reachable (Kahn.step (recorder file)) (start.along fun _ => .closed) (s.along m)) :
    Tells file s m := by
  have key : ∃ s₁ m₁, s.along m = s₁.along m₁ ∧ (script file hg).Holds s₁ ∧ Tells file s₁ m₁ := by
    refine Reachable.invariant (I := fun x => ∃ s₁ m₁, x = Kahn.State.along s₁ m₁ ∧
      (script file hg).Holds s₁ ∧ Tells file s₁ m₁) ?_ hr ⟨_, _, rfl, start_holds hg, tells_start⟩
    rintro x p y ⟨s₁, m₁, rfl, h, ht⟩ hs
    obtain ⟨s₂, hs₂, rfl⟩ := Kahn.step_recording hs
    exact ⟨_, _, rfl, h.step hs₂, tells_step h ht hs₂⟩
  obtain ⟨s₁, m₁, he, -, ht⟩ := key
  obtain ⟨rfl, rfl⟩ := Kahn.State.along_inj he
  exact ht

end

/-! ## The end -/

theorem down_ne_root {n : Nat} (h : Down file p n v) : p ≠ .battle .A := by
  cases h with
  | round i hl => exact child_ne_root _ _
  | pass hA he hd => exact child_ne_root _ _

section

variable {s : State} (h : (script file hg).Holds s) (hex : ∀ p, exited s p = true)

include h hex

theorem done_even (b : Battle) (i : Bool) :
    Kahn.written s (.stdin (child b i)) = Kahn.received s (.stdout (child b i)) := by
  have hpc : (battleLoc s b).pc = .done := of_decide_eq_true (hex (.battle b))
  have ht := battleAt h b
  generalize battleLoc s b = l at *
  obtain ⟨pc, st, w⟩ := l
  cases hpc
  obtain ⟨n, hk, hrest⟩ := ht
  rcases Bool.eq_or_eq_not i w with rfl | rfl
  · by_cases hA : b = .A
    · rw [if_pos hA] at hrest
      obtain ⟨⟨-, hp⟩, -⟩ := hrest
      exact hp.toChild.trans hp.fromChild.symm
    · rw [if_neg hA] at hrest
      obtain ⟨j, hp, -⟩ := hrest
      exact hp.toChild.trans hp.fromChild.symm
  · exact hk.toChild.trans hk.fromChild.symm

theorem done_balanced (p : Proc) (hp : p ≠ .battle .A) :
    Kahn.received s (.stdin p) = Kahn.written s (.stdout p) := by
  cases p with
  | battle b =>
    have hA : b ≠ .A := fun e => hp (congrArg Proc.battle e)
    have hpc : (battleLoc s b).pc = .done := of_decide_eq_true (hex (.battle b))
    have ht := battleAt h b
    generalize battleLoc s b = l at *
    obtain ⟨pc, st, w⟩ := l
    cases hpc
    obtain ⟨n, -, hrest⟩ := ht
    rw [if_neg hA] at hrest
    obtain ⟨j, hp, -⟩ := hrest
    exact hp.down.trans hp.up.symm
  | player k =>
    have hpc : (playerLoc s k).pc = .done := of_decide_eq_true (hex (.player k))
    have ht := playerAt h k
    generalize playerLoc s k = l at *
    obtain ⟨pc, m, o⟩ := l
    cases hpc
    obtain ⟨n, v, hout, -⟩ := ht
    exact hout.fromParent.trans hout.toParent.symm

theorem pipes_drained (b : Battle) (i : Bool) :
    s.queue (.stdin (child b i)) = [] ∧ s.queue (.stdout (child b i)) = [] := by
  have h₁ := done_even h hex b i
  have h₂ := done_balanced h hex (child b i) (child_ne_root b i)
  have h₃ := Kahn.queue_length s (.stdin (child b i))
  have h₄ := Kahn.queue_length s (.stdout (child b i))
  exact ⟨List.length_eq_zero_iff.1 (by omega), List.length_eq_zero_iff.1 (by omega)⟩

theorem root_quiet : Kahn.sent s (.stdin (.battle .A)) = [] ∧ Kahn.sent s (.stdout (.battle .A)) = [] := by
  constructor
  · by_contra hne
    obtain ⟨v, vs, hv⟩ := List.exists_cons_of_ne_nil hne
    have hget : (Kahn.sent s (.stdin (.battle .A)))[0]? = some v := by rw [hv]; rfl
    exact down_ne_root (h.msg hget) rfl
  · have hpc : (battleLoc s .A).pc = .done := of_decide_eq_true (hex (.battle .A))
    have ht := battleAt h .A
    generalize battleLoc s .A = l at *
    obtain ⟨pc, st, w⟩ := l
    cases hpc
    obtain ⟨n, -, hrest⟩ := ht
    rw [if_pos rfl] at hrest
    obtain ⟨⟨-, hp⟩, -⟩ := hrest
    exact List.length_eq_zero_iff.1 hp.up

omit hex in
theorem fifo_drained (hf : ∀ b, feeder k = some b → s.taken (.fifo k) ≠ []) :
    s.queue (.fifo k) = [] := by
  by_contra hne
  obtain ⟨v, vs, hv⟩ := List.exists_cons_of_ne_nil hne
  have hget : (Kahn.sent s (.fifo k))[Kahn.received s (.fifo k)]? = some v :=
    Kahn.head_get (by rw [hv]; rfl)
  obtain ⟨-, hfk, -⟩ := h.msg hget
  obtain ⟨b, hb⟩ := Option.ne_none_iff_exists'.1 hfk
  have h₁ := fifo_once h k
  have h₂ := List.length_pos_iff.2 (hf b hb)
  rw [Kahn.sent, List.length_append, hv, List.length_cons] at h₁
  omega

theorem drained (hf : ∀ k b, feeder k = some b → s.taken (.fifo k) ≠ []) (c : Chan) :
    s.queue c = [] := by
  obtain ⟨h₁, h₂⟩ := root_quiet h hex
  cases c with
  | stdin p =>
    rcases child_cases p with rfl | ⟨b, i, rfl⟩
    · exact (List.append_eq_nil_iff.1 h₁).2
    · exact (pipes_drained h hex b i).1
  | stdout p =>
    rcases child_cases p with rfl | ⟨b, i, rfl⟩
    · exact (List.append_eq_nil_iff.1 h₂).2
    · exact (pipes_drained h hex b i).2
  | fifo k => exact fifo_drained h (hf k)

end

/-! ## Every run -/

/-- The log that `p` writes to. -/
def Logged.logged (s : Logged) (p : Proc) : List LogLine :=
  match (s.log p).file with
  | some f => s.files f
  | none => []

/-- What is still owed belongs to the step just taken or to the one that comes. -/
def Owes (file : List Line) (s : Logged) : Prop :=
  ∀ p, ∃ zs, (∀ z ∈ zs, z.dir = .received) ∧
    (s.log p).owed <:+ zs ++ announced p (prog file p (s.net.loc p))

section

variable {s s' : Logged} {m : Proc → Log} {w : Proc → List LogLine}

theorem owes_step {e : Logged.Event} (h : Owes file s) (hs : Logged.step file s e = some s') :
    Owes file s' := by
  intro q
  cases e with
  | act p =>
    simp only [Logged.step] at hs
    split at hs
    · rename_i ho
      obtain ⟨n, hn, rfl⟩ := Option.map_eq_some_iff.1 hs
      by_cases hq : q = p
      · subst hq
        refine ⟨noted q (prog file q (s.net.loc q))
          (Kahn.heard s.net (prog file q (s.net.loc q))), fun z hz => (noted_received z hz).2, ?_⟩
        rw [recorded_self, ho, List.nil_append]
      · simp only [recorded_of_ne hq, Kahn.step_loc_of_ne hn hq]
        exact h q
    · cases hs
  | note p =>
    simp only [Logged.step] at hs
    split at hs
    · cases hs
    · rename_i x xs ho
      cases hs
      by_cases hq : q = p
      · subst hq
        obtain ⟨zs, hz, hsuf⟩ := h q
        refine ⟨zs, hz, ?_⟩
        simp only [Function.update_self]
        rw [ho] at hsuf
        exact (List.suffix_cons x xs).trans hsuf
      · simp only [Function.update_of_ne hq]
        exact h q
  | retry p =>
    simp only [Logged.step] at hs
    split at hs
    · cases hs
      exact h q
    · cases hs

theorem owes_reachable (hr : Reachable (Logged.step file) Logged.start s) : Owes file s := by
  refine hr.invariant (fun _ _ _ h hs => owes_step h hs) fun p => ⟨[], ?_, List.nil_suffix⟩
  intro z hz
  cases hz

theorem shownOn_logged (h : Ledger file hg s m w) (ht : Tells file s.net m) :
    shownOn p d c (s.logged p) = shownOn p d c (w p) := by
  have hw : ∀ q, q ≠ p → shownOn p d c (w q) = [] := by
    intro q hq
    refine shownOn_eq_nil fun x hx hid => absurd ?_ hq
    have hx' : x ∈ (m q).owed := by
      rw [h.split q]
      exact List.mem_append_left _ hx
    exact (ht.id q x hx').symm.trans hid
  rw [Logged.logged, h.fd p]
  rcases h.recorded.opened p with ⟨-, hc⟩ | ⟨-, hf⟩
  · have hsplit := h.split p
    rw [hc] at hsplit ⊢
    have hsplit : [] = w p ++ (s.log p).owed := hsplit
    rw [(List.append_eq_nil_iff.1 hsplit.symm).1]
    rfl
  · rw [hf]
    show shownOn p d c (s.files (logOf file p)) = _
    have hdist : shownOn p d c ((writers file (logOf file p)).flatMap w) =
        (writers file (logOf file p)).flatMap fun q => shownOn p d c (w q) := by
      simp [shownOn, List.filter_flatMap, List.map_flatMap]
    rw [h.merged, hdist]
    exact Kahn.flatMap_single ((writers_pairwise file _).imp Gives.ne) (mem_writers.2 rfl) hw

/-- What has been written about `c` on one side and on the other. -/
theorem shown_received (h : Ledger file hg s m w) (ht : Tells file s.net m) :
    shownOn (rcv c) .received c (w (rcv c)) ++ shownOn (rcv c) .received c (s.log (rcv c)).owed =
      s.net.taken c := by
  rw [← ht.received c, h.split, shownOn_append]

theorem shown_sent (h : Ledger file hg s m w) (ht : Tells file s.net m) (ho : Owes file s) :
    Kahn.sent s.net c <+: shownOn (snd file c) .sent c (w (snd file c)) := by
  have hc := ht.sent c
  rw [h.split, shownOn_append] at hc
  obtain ⟨zs, hz, ys, hy⟩ := ho (snd file c)
  have hz : shownOn (snd file c) .sent c zs = [] := by
    refine shownOn_eq_nil fun x hx _ hd => ?_
    rw [hz x hx] at hd
    cases hd
  have hlen := congrArg (fun l => (shownOn (snd file c) .sent c l).length) hy
  simp only [shownOn_append, List.length_append, hz, List.length_nil] at hlen
  have hlen' := congrArg List.length hc
  simp only [List.length_append] at hlen'
  refine List.prefix_of_prefix_length_le (List.prefix_append _ _)
    (hc ▸ List.prefix_append _ _) ?_
  omega

theorem Ledger.fed_done (h : Ledger file hg s m w) (hex : exited s.net (.player k) = true)
    (hb : feeder k = some b) : s.net.taken (.fifo k) ≠ [] := by
  intro ht
  have hd := h.recorded.fed k b hb ht
  have hpc : (playerLoc s.net k).pc = .done := of_decide_eq_true hex
  rw [playerLoc] at hpc
  rw [dormant, hpc] at hd
  cases hd

theorem ends_text (file : List Line) {p : Proc} (hp : p ≠ .battle .A) (hc : c = .stdin p ∨ c = .stdout p)
    (pid : Proc → Int) (v : Status) :
    (⟨snd file c, .sent, c, v⟩ : LogLine).text pid = pipeLine pid (snd file c) (rcv c) .sent v ∧
      (⟨rcv c, .received, c, v⟩ : LogLine).text pid = pipeLine pid (rcv c) (snd file c) .received v := by
  rcases child_cases p with rfl | ⟨b, i, rfl⟩
  · exact absurd rfl hp
  · have h := fun d => pipe_text pid b i d v c (by simpa using hc)
    rcases hc with rfl | rfl
    · simp only [snd, rcv, parent_child]
      exact ⟨(h .sent).2, (h .received).1⟩
    · simp only [snd, rcv, parent_child]
      exact ⟨(h .sent).1, (h .received).2⟩

/-- An agent names the player it plays on for, who has written to it. -/
theorem fifo_ends (h : Ledger file hg s m w) (ht : Tells file s.net m)
    (hv : v ∈ shownOn (.player k) .received (.fifo k) (w (.player k))) :
    (snd file (.fifo k)).name = showD v.realPlayerId := by
  have hR := shown_received (c := .fifo k) h ht
  have hsent : v ∈ Kahn.sent s.net (.fifo k) := by
    refine List.mem_append_left _ ?_
    rw [← hR]
    exact List.mem_append_left _ hv
  obtain ⟨n, hn⟩ := List.getElem?_of_mem hsent
  obtain ⟨-, -, rfl⟩ := h.recorded.holds.msg hn
  have hp := (person_entrant hg (.player k)).id
  rw [seat_player] at hp
  rw [hp]
  rfl

end

/-- The lines of the two ends are the same but for the direction. -/
theorem logs_mirror (file : List Line) (hg : GoodFile file) (s : Logged)
    (hr : Reachable (Logged.step file) Logged.start s) (c : Chan) :
    shownOn (rcv c) .received c (s.logged (rcv c)) <+: shownOn (snd file c) .sent c (s.logged (snd file c)) ∧
      (s.finished → s.net.queue c = [] ∧ shownOn (rcv c) .received c (s.logged (rcv c)) =
        shownOn (snd file c) .sent c (s.logged (snd file c))) ∧
      (∀ p, p ≠ .battle .A → c = .stdin p ∨ c = .stdout p → ∀ pid v,
        (⟨snd file c, .sent, c, v⟩ : LogLine).text pid = pipeLine pid (snd file c) (rcv c) .sent v ∧
          (⟨rcv c, .received, c, v⟩ : LogLine).text pid =
            pipeLine pid (rcv c) (snd file c) .received v) ∧
      ∀ k, c = .fifo k → ∀ pid, ∀ v ∈ shownOn (rcv c) .received c (s.logged (rcv c)),
        (⟨snd file c, .sent, c, v⟩ : LogLine).text pid = fifoLine pid (snd file c) (rcv c) .sent v ∧
          (⟨rcv c, .received, c, v⟩ : LogLine).text pid =
            fifoLine pid (rcv c) (snd file c) .received v := by
  obtain ⟨m, w, h⟩ := ledger_reachable hg hr
  have ht := tells_reachable hg h.run
  have ho := owes_reachable hr
  have hR := shown_received (c := c) h ht
  have hS := shown_sent (c := c) h ht ho
  rw [shownOn_logged h ht, shownOn_logged h ht]
  refine ⟨?_, ?_, fun p hp hc pid v => ends_text file hp hc pid v, ?_⟩
  · have h₁ : shownOn (rcv c) .received c (w (rcv c)) <+: s.net.taken c := hR ▸ List.prefix_append _ _
    exact (h₁.trans (List.prefix_append _ _)).trans hS
  · intro hfin
    have hex : ∀ p, exited s.net p = true := fun p => (hfin p).1
    have hq := drained h.recorded.holds hex (fun k b hb => h.fed_done (hex _) hb) c
    have hsent := ht.sent c
    rw [h.split, (hfin (snd file c)).2, List.append_nil] at hsent
    have hhalt : prog file (snd file c) (s.net.loc (snd file c)) = .halt := halt_of_exited (hex _)
    rw [(hfin (rcv c)).2, shownOn_nil, List.append_nil] at hR
    refine ⟨hq, ?_⟩
    rw [hsent, hhalt, hR, Kahn.sent, hq]
    simp [announced]
  · rintro k rfl pid v hv
    exact fifo_text pid _ _ v (fifo_ends h ht hv)

end

/-- Down to battle `G`, which has read the status of player 0 and logged it. -/
def loggedToG : List Logged.Event :=
  [.act (.battle .A), .act (.battle .A), .act (.battle .B), .act (.battle .B), .act (.battle .D),
    .act (.battle .D), .act (.battle .G), .act (.battle .G), .act (.battle .G), .act (.player 0),
    .note (.player 0), .act (.player 0), .act (.battle .G), .note (.battle .G)]

/-- The state after these events. -/
def loggedAfter (file : List Line) (evs : List Logged.Event) : Logged :=
  (runEvents (@Logged.step .int file) Logged.start evs).getD Logged.start

theorem logs_mirror_statusFile :
    shownOn (.battle .G) .received (.stdout (.player 0))
        ((loggedAfter statusFile loggedToG).logged (.battle .G)) <+:
      shownOn (.player 0) .sent (.stdout (.player 0))
        ((loggedAfter statusFile loggedToG).logged (.player 0)) := by
  have h : runEvents (@Logged.step .int statusFile) Logged.start loggedToG =
      some (loggedAfter statusFile loggedToG) := rfl
  exact (@logs_mirror .int statusFile statusFile_good _ (reachable_runEvents h) (.stdout (.player 0))).1

end SysProg.Tournament
