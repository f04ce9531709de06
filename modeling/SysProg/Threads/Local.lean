import SysProg.Threads.Programs

/-!
# SysProg.Threads.Local

A thread by itself: no queues, no other threads, only its code, its variables and the items it has
not read yet. `Local.next` runs it to the next point where it can be left; it waits for an item
before it reads, and it never falls off its function.

* `next_some`, `next_eq`: when `next` takes a step, and what it leaves.
* `iter_append`: items that arrive later do not change what was done before.
* `iter_same`: what `malloc` left in `i` and `buf` does not matter.
* `lines_comparable`: with the same items, the lines after fewer steps are a beginning of the lines
  after more.
-/

namespace SysProg.Threads

structure Local where
  /-- `none` after `thread_exit`. -/
  code : Option Code
  vars : Vars
  items : List Item
  lines : List Text

/-- The code that a thread is left at. -/
def Stop.code : Stop → Option Code
  | .yield code => some code
  | .read code => some code
  | .exit => none
  | .fell => none

/-- The thread is the same but for its place in memory and what was there before. -/
def Thread.Alike (th th' : Thread) : Prop :=
  th.func = th'.func ∧ th.id = th'.id ∧ th.arg = th'.arg

namespace Local

def next (l : Local) : Option Local :=
  match l.code with
  | none => none
  | some code =>
    if code = .subarrayRead ∧ l.items = [] then none
    else
      let seg := code.run l.vars l.items
      let l' : Local :=
        { code := none, vars := seg.vars, items := seg.fifo, lines := l.lines ++ seg.line.toList }
      match seg.stop with
      | .yield code => some { l' with code := some code }
      | .read code => some { l' with code := some code }
      | .exit => some l'
      | .fell => none

def iter : Nat → Local → Option Local
  | 0, l => some l
  | k + 1, l => (iter k l).bind next

def start (th : Thread) (items : List Item) : Local where
  code := some th.func.start
  vars := th.setup.toVars
  items := items
  lines := []

def addItems (l : Local) (items : List Item) : Local := { l with items := l.items ++ items }

theorem iter_add (j k : Nat) (l : Local) : iter (j + k) l = (iter j l).bind (iter k) := by
  induction k with
  | zero => simp [iter]
  | succ k ih =>
    change (iter (j + k) l).bind next = _
    rw [ih, Option.bind_assoc]
    rfl

/-- The thread after a segment. -/
def after (l : Local) (seg : Segment) : Local :=
  ⟨seg.stop.code, seg.vars, seg.fifo, l.lines ++ seg.line.toList⟩

theorem next_some {l l' : Local} (h : l.next = some l') :
    ∃ c, l.code = some c ∧ ¬ (c = .subarrayRead ∧ l.items = []) ∧
      (c.run l.vars l.items).stop ≠ .fell ∧ l' = l.after (c.run l.vars l.items) := by
  unfold next at h
  cases hc : l.code with
  | none => simp only [hc, reduceCtorEq] at h
  | some c =>
    simp only [hc] at h
    split at h
    · cases h
    · rename_i hr
      refine ⟨c, rfl, hr, ?_⟩
      unfold after
      cases hs : (c.run l.vars l.items).stop with
      | yield c' => simp only [hs, Option.some.injEq] at h; rw [← h]; exact ⟨nofun, rfl⟩
      | read c' => simp only [hs, Option.some.injEq] at h; rw [← h]; exact ⟨nofun, rfl⟩
      | exit => simp only [hs, Option.some.injEq] at h; rw [← h]; exact ⟨nofun, rfl⟩
      | fell => simp only [hs, reduceCtorEq] at h

theorem next_eq {l : Local} {c : Code} (hc : l.code = some c)
    (hr : ¬ (c = .subarrayRead ∧ l.items = [])) (hs : (c.run l.vars l.items).stop ≠ .fell) :
    l.next = some (l.after (c.run l.vars l.items)) := by
  unfold next after
  simp only [hc, if_neg hr]
  cases hstop : (c.run l.vars l.items).stop with
  | yield c' => rfl
  | read c' => rfl
  | exit => rfl
  | fell => exact absurd hstop hs

theorem iter_invariant {P : Nat → Local → Prop}
    (hP : ∀ k l l', P k l → l.next = some l' → P (k + 1) l') {l : Local} (h0 : P 0 l) :
    ∀ {k l'}, iter k l = some l' → P k l' := by
  intro k
  induction k with
  | zero => intro l' h; cases h; exact h0
  | succ k ih =>
    intro l' h
    simp only [iter, Option.bind_eq_some_iff] at h
    obtain ⟨l1, h1, h2⟩ := h
    exact hP k l1 l' (ih h1) h2

/-! ## Items that arrive later -/

theorem collatzLoop_fifo (t : Vars) (fifo fifo' : List Item) :
    collatzLoop t fifo' = { collatzLoop t fifo with fifo := fifo' } := by
  unfold collatzLoop
  split <;> rfl

/-- Only `async_read` looks at the FIFO. -/
theorem run_fifo {code : Code} (h : code ≠ .subarrayRead) (t : Vars) (fifo fifo' : List Item) :
    code.run t fifo' = { code.run t fifo with fifo := fifo' } := by
  cases code with
  | subarrayRead => exact (h rfl).elim
  | collatzStart => exact collatzLoop_fifo t fifo fifo'
  | collatzYield => exact collatzLoop_fifo t fifo fifo'
  | fibonacciStart => rfl
  | fibonacciYield => rfl
  | subarrayStart => rfl
  | subarrayYield => rfl

theorem run_fifo_self {code : Code} (h : code ≠ .subarrayRead) (t : Vars) (fifo : List Item) :
    (code.run t fifo).fifo = fifo := by
  rw [run_fifo h t [] fifo]

theorem run_append (code : Code) (t : Vars) {fifo : List Item} (items : List Item)
    (h : code = .subarrayRead → fifo ≠ []) :
    code.run t (fifo ++ items) =
      { code.run t fifo with fifo := (code.run t fifo).fifo ++ items } := by
  by_cases hc : code = .subarrayRead
  · subst hc
    cases fifo with
    | nil => exact (h rfl rfl).elim
    | cons item rest => rfl
  · rw [run_fifo hc t fifo, run_fifo_self hc]

theorem next_append {l l' : Local} (items : List Item) (h : l.next = some l') :
    (l.addItems items).next = some (l'.addItems items) := by
  obtain ⟨c, hc, hr, hs, rfl⟩ := next_some h
  have hrun : c.run l.vars (l.items ++ items) =
      { c.run l.vars l.items with fifo := (c.run l.vars l.items).fifo ++ items } :=
    run_append c l.vars items fun h1 h2 => hr ⟨h1, h2⟩
  have hr' : ¬ (c = .subarrayRead ∧ l.items ++ items = []) := by
    rintro ⟨h1, h2⟩
    exact hr ⟨h1, (List.append_eq_nil_iff.1 h2).1⟩
  have hs' : (c.run l.vars (l.items ++ items)).stop ≠ .fell := by
    rw [hrun]
    exact hs
  have hn : (l.addItems items).next = some ((l.addItems items).after (c.run l.vars (l.items ++ items))) :=
    next_eq hc hr' hs'
  rw [hn, hrun]
  rfl

theorem iter_append (items : List Item) (k : Nat) :
    ∀ {l l' : Local}, iter k l = some l' → iter k (l.addItems items) = some (l'.addItems items) := by
  induction k with
  | zero => intro l l' h; cases h; rfl
  | succ k ih =>
    intro l l' h
    simp only [iter, Option.bind_eq_some_iff] at h ⊢
    obtain ⟨l1, h1, h2⟩ := h
    exact ⟨l1.addItems items, ih h1, next_append items h2⟩

theorem start_addItems (th : Thread) (items items' : List Item) :
    (start th items).addItems items' = start th (items ++ items') := rfl

/-! ## What malloc left -/

/-- The variables agree as far as the code that follows uses them. -/
def Agree (code : Option Code) (t t' : Vars) : Prop :=
  t.id = t'.id ∧ t.arg = t'.arg ∧ t.x = t'.x ∧ t.y = t'.y ∧
    (code = some .fibonacciYield ∨ code = some .subarrayRead ∨ code = some .subarrayYield →
      t.i = t'.i)

structure Same (l l' : Local) : Prop where
  code : l.code = l'.code
  vars : Agree l.code l.vars l'.vars
  items : l.items = l'.items
  lines : l.lines = l'.lines

theorem fibonacciBody_agree (t t' : Vars) (fifo : List Item) (hid : t.id = t'.id)
    (harg : t.arg = t'.arg) (hx : t.x = t'.x) (hy : t.y = t'.y) (hi : t.i = t'.i) :
    (fibonacciBody t fifo).stop = (fibonacciBody t' fifo).stop ∧
      (fibonacciBody t fifo).line = (fibonacciBody t' fifo).line ∧
      ∀ code, Agree code (fibonacciBody t fifo).vars (fibonacciBody t' fifo).vars := by
  unfold fibonacciBody
  simp only [hi]
  split
  · exact ⟨by simp [harg], by simp [hid], fun _ => ⟨hid, harg, rfl, rfl, fun _ => rfl⟩⟩
  · refine ⟨by simp [harg], by simp [hid, hx, hy], fun _ => ⟨hid, harg, hy, ?_, fun _ => rfl⟩⟩
    simp [hx, hy]

theorem collatzLoop_agree {t t' : Vars} (fifo : List Item) (hid : t.id = t'.id)
    (harg : t.arg = t'.arg) (hx : t.x = t'.x) (hy : t.y = t'.y) :
    (collatzLoop t fifo).stop = (collatzLoop t' fifo).stop ∧
      (collatzLoop t fifo).line = (collatzLoop t' fifo).line ∧
      Agree (Stop.code (collatzLoop t fifo).stop) (collatzLoop t fifo).vars
        (collatzLoop t' fifo).vars := by
  unfold collatzLoop
  simp only [harg]
  split
  · generalize (if t'.arg.srem 2 = 0 then t'.arg.sdiv 2 else t'.arg * 3 + 1) = v
    refine ⟨rfl, by simp [hid], hid, rfl, hx, hy, ?_⟩
    by_cases hv : v = 1#32
    · simp [hv, Stop.code]
    · simp [hv, Stop.code]
  · exact ⟨rfl, rfl, hid, harg, hx, hy, by simp [Stop.code]⟩

theorem readItem_buf (t : Vars) (item : Item) (rest : List Item) :
    cstr ((readItem t (item :: rest)).1.buf.set 4 '\x00') = cstr (item.val.set 4 '\x00') := by
  obtain ⟨bytes, hb⟩ := item
  simp only [readItem]
  rcases bytes with _ | ⟨a, _ | ⟨b, _ | ⟨c, _ | ⟨d, _ | ⟨e, _ | ⟨f, rest⟩⟩⟩⟩⟩⟩
  all_goals first
    | (simp only [List.length_cons, List.length_nil] at hb; omega)
    | skip
  simp [cstr, List.takeWhile]

theorem maxSubarrayBody_agree {t t' : Vars} (item : Item) (rest : List Item) (hid : t.id = t'.id)
    (harg : t.arg = t'.arg) (hx : t.x = t'.x) (hy : t.y = t'.y) (hi : t.i = t'.i) :
    (maxSubarrayBody t (item :: rest)).stop = (maxSubarrayBody t' (item :: rest)).stop ∧
      (maxSubarrayBody t (item :: rest)).line = (maxSubarrayBody t' (item :: rest)).line ∧
      ∀ code, Agree code (maxSubarrayBody t (item :: rest)).vars
        (maxSubarrayBody t' (item :: rest)).vars := by
  unfold maxSubarrayBody
  simp only [readItem_buf]
  refine ⟨?_, ?_, fun _ => ⟨hid, harg, ?_, ?_, fun _ => hi⟩⟩
  · change (if t.i = t.arg then Stop.exit else _) = if t'.i = t'.arg then Stop.exit else _
    rw [hi, harg]
  · simp [readItem, hid, hx, hy]
  · simp [readItem, hx]
  · simp [readItem, hx, hy]

theorem run_agree {code : Code} {t t' : Vars} (h : Agree (some code) t t') (fifo : List Item)
    (hr : code = .subarrayRead → fifo ≠ []) :
    (code.run t fifo).stop = (code.run t' fifo).stop ∧
      (code.run t fifo).line = (code.run t' fifo).line ∧
      (code.run t fifo).fifo = (code.run t' fifo).fifo ∧
      Agree (Stop.code (code.run t fifo).stop) (code.run t fifo).vars (code.run t' fifo).vars := by
  obtain ⟨hid, harg, hx, hy, hi⟩ := h
  cases code with
  | fibonacciStart =>
    obtain ⟨h1, h2, h3⟩ := fibonacciBody_agree { t with i := 1 } { t' with i := 1 }
      fifo hid harg hx hy rfl
    exact ⟨h1, h2, rfl, h3 _⟩
  | fibonacciYield =>
    obtain ⟨h1, h2, h3⟩ := fibonacciBody_agree { t with i := t.i + 1 }
      { t' with i := t'.i + 1 } fifo hid harg hx hy (by simp [hi])
    exact ⟨h1, h2, rfl, h3 _⟩
  | collatzStart =>
    obtain ⟨h1, h2, h3⟩ := collatzLoop_agree fifo hid harg hx hy
    refine ⟨h1, h2, ?_, h3⟩
    rw [run_fifo_self (by simp), run_fifo_self (by simp)]
  | collatzYield =>
    obtain ⟨h1, h2, h3⟩ := collatzLoop_agree fifo hid harg hx hy
    refine ⟨h1, h2, ?_, h3⟩
    rw [run_fifo_self (by simp), run_fifo_self (by simp)]
  | subarrayStart => exact ⟨rfl, rfl, rfl, hid, harg, hx, hy, fun _ => rfl⟩
  | subarrayYield =>
    refine ⟨rfl, rfl, rfl, hid, harg, hx, hy, fun _ => ?_⟩
    simp [Code.run, hi]
  | subarrayRead =>
    cases fifo with
    | nil => exact (hr rfl rfl).elim
    | cons item rest =>
      obtain ⟨h1, h2, h3⟩ := maxSubarrayBody_agree item rest hid harg hx hy (hi (by simp))
      exact ⟨h1, h2, rfl, h3 _⟩

theorem next_same {l l1 l' : Local} (h : Same l l') (hn : l.next = some l1) :
    ∃ l1', l'.next = some l1' ∧ Same l1 l1' := by
  obtain ⟨hcode, hvars, hitems, hlines⟩ := h
  obtain ⟨c, hc, hr, hs, rfl⟩ := next_some hn
  rw [hc] at hvars
  obtain ⟨h1, h2, h3, h4⟩ := run_agree hvars l.items fun e1 e2 => hr ⟨e1, e2⟩
  have hs' : (c.run l'.vars l'.items).stop ≠ .fell := by
    rw [← hitems, ← h1]
    exact hs
  refine ⟨_, next_eq (hcode.symm.trans hc) (by rwa [← hitems]) hs', ?_, ?_, ?_, ?_⟩
  · rw [after, after, h1, hitems]
  · simpa only [after, ← hitems] using h4
  · rw [after, after, h3, hitems]
  · rw [after, after, hlines, h2, hitems]

theorem iter_same (k : Nat) :
    ∀ {l l1 l' : Local}, Same l l' → iter k l = some l1 → ∃ l1', iter k l' = some l1' ∧ Same l1 l1' := by
  induction k with
  | zero => intro l l1 l' h hk; cases hk; exact ⟨l', rfl, h⟩
  | succ k ih =>
    intro l l1 l' h hk
    simp only [iter, Option.bind_eq_some_iff] at hk ⊢
    obtain ⟨l2, h2, h3⟩ := hk
    obtain ⟨l2', h2', hs⟩ := ih h h2
    obtain ⟨l1', h1', hs'⟩ := next_same hs h3
    exact ⟨l1', ⟨l2', h2', h1'⟩, hs'⟩

/-! ## The lines -/

theorem next_lines {l l' : Local} (h : l.next = some l') : l.lines <+: l'.lines := by
  obtain ⟨c, -, -, -, rfl⟩ := next_some h
  exact List.prefix_append _ _

theorem iter_lines {k : Nat} {l l' : Local} (h : iter k l = some l') : l.lines <+: l'.lines :=
  iter_invariant (P := fun _ l' => l.lines <+: l'.lines)
    (fun _ _ _ hp hn => hp.trans (next_lines hn)) (List.prefix_refl _) h

theorem start_same {th th' : Thread} (h : th.Alike th') (items : List Item) :
    Same (start th items) (start th' items) := by
  obtain ⟨hf, hid, harg⟩ := h
  refine ⟨by simp [start, hf], ⟨hid, harg, rfl, rfl, fun hc => ?_⟩, rfl, rfl⟩
  cases hfunc : th.func <;> simp [start, hfunc, Func.start] at hc

/-- Two runs of a thread, the second with at least as many steps and items as the first. -/
theorem lines_prefix {th th' : Thread} (h : th.Alike th') {j k : Nat} (hjk : j ≤ k)
    {items items' : List Item} (hitems : items <+: items') {l l' : Local}
    (hj : iter j (start th items) = some l) (hk : iter k (start th' items') = some l') :
    l.lines <+: l'.lines := by
  obtain ⟨more, rfl⟩ := hitems
  have h1 := iter_append more j hj
  rw [start_addItems] at h1
  obtain ⟨l2, h2, hs⟩ := iter_same j (start_same h _) h1
  obtain ⟨d, rfl⟩ := Nat.exists_eq_add_of_le hjk
  rw [iter_add, h2, Option.bind_some] at hk
  have := iter_lines hk
  rw [← hs.lines] at this
  exact this

end Local

end SysProg.Threads
