import SysProg.Movies.Marked
import SysProg.Movies.Process

/-!
# SysProg.Movies.Buffers

What the processes of the `PROCESS` build do to the buffers.

* `Buffered`: cells that point to buffers with the titles of the movies.
* `region`: the cells, the buffers and the ghosts a call of `mergesort` uses.
* `Apart`: the invariant of such a call: its cells point to its own buffers, and to distinct ones
  unless a `merge` of a range with both cells is copying its result back.
* `leads_leaf`: the strings a leaf writes; `leads_merge`: the pointers a merge moves.
-/

namespace SysProg.Movies.Process

open SysProg.ForkJoin (Leads overlay overlay_mem overlay_notMem)

variable {S : Type} [Double S]

def Buffered (d : Nat) (m : Memory S) (i : Int) (zs : List (Nat × Movie S)) : Prop :=
  Along (fun j z => m (.name d j) = .buf z.1 ∧ m (.buf z.1) = z.2.title ∧
    m (.score d j) = z.2.score) i zs

def bufs (bs : List Nat) : Set Loc := {x | ∃ b ∈ bs, x = .buf b}

def flags (d : Nat) (l r : Int) : Set Loc :=
  {x | ∃ a b, l ≤ a ∧ a ≤ b ∧ b ≤ r ∧ x = .copying d a b}

def region (d : Nat) (l r : Int) (bs : List Nat) : Set Loc := cells d l r ∪ bufs bs ∪ flags d l r

structure Apart (d : Nat) (l r : Int) (bs : List Nat) (m : Memory S) : Prop where
  own : ∀ i, l ≤ i → i ≤ r → ∃ b ∈ bs, m (.name d i) = .buf b
  distinct : ∀ i j, l ≤ i → i < j → j ≤ r → m (.name d i) = m (.name d j) →
    ∃ a b, l ≤ a ∧ a ≤ i ∧ j ≤ b ∧ b ≤ r ∧ m (.copying d a b) = true

variable {d : Nat} {l r : Int} {bs : List Nat} {m m' : Memory S}

omit [Double S] in
theorem Apart.congr (h : Apart d l r bs m)
    (hn : ∀ i, l ≤ i → i ≤ r → m' (.name d i) = m (.name d i))
    (hf : ∀ a b, m' (.copying d a b) = m (.copying d a b)) : Apart d l r bs m' where
  own i hi hi' := by rw [hn i hi hi']; exact h.own i hi hi'
  distinct i j hi hij hj e := by
    rw [hn i hi (by omega), hn j (by omega) hj] at e
    obtain ⟨a, b, h1, h2, h3, h4, h5⟩ := h.distinct i j hi hij hj e
    exact ⟨a, b, h1, h2, h3, h4, by rw [hf, h5]⟩

theorem cells_sub_region : cells d l r ⊆ region d l r bs := fun _ h => .inl (.inl h)

theorem bufs_sub_region : bufs bs ⊆ region d l r bs := fun _ h => .inl (.inr h)

theorem flags_sub_region : flags d l r ⊆ region d l r bs := fun _ h => .inr h

omit [Double S] in
theorem Buffered.congr {i : Int} {zs : List (Nat × Movie S)} (h : Buffered d m i zs)
    (hm : ∀ x ∈ cells d i (i + zs.length - 1) ∪ bufs (zs.map Prod.fst), m' x = m x) :
    Buffered d m' i zs := by
  refine h.imp fun j z hj hj' hz hc => ⟨?_, ?_, ?_⟩
  · rw [hm _ (.inl (name_mem_cells.2 ⟨hj, by omega⟩))]; exact hc.1
  · rw [hm _ (.inr ⟨z.1, List.mem_map_of_mem hz, rfl⟩)]; exact hc.2.1
  · rw [hm _ (.inl (score_mem_cells.2 ⟨hj, by omega⟩))]; exact hc.2.2

omit [Double S] in
/-- Distinct buffers in the cells: nothing is being copied back. -/
theorem Buffered.apart {zs : List (Nat × Movie S)} (h : Buffered d m l zs)
    (hlen : l + zs.length = r + 1) (hb : (zs.map Prod.fst).Perm bs) (hnd : bs.Nodup) :
    Apart d l r bs m := by
  have hcell : ∀ i, l ≤ i → i ≤ r → ∃ n : Nat, ∃ z, i = l + n ∧ zs[n]? = some z := by
    intro i hi hi'
    refine ⟨(i - l).toNat, zs[(i - l).toNat], by omega, List.getElem?_eq_getElem (by omega)⟩
  have hnd' := hb.nodup_iff.2 hnd
  refine ⟨fun i hi hi' => ?_, fun i j hi hij hj e => ?_⟩
  · obtain ⟨n, z, rfl, hz⟩ := hcell i hi hi'
    exact ⟨z.1, hb.mem_iff.1 (List.mem_map_of_mem (List.mem_of_getElem? hz)), (h n z hz).1⟩
  · obtain ⟨n, z, rfl, hz⟩ := hcell i hi (by omega)
    obtain ⟨n', z', rfl, hz'⟩ := hcell j (by omega) hj
    rw [(h n z hz).1, (h n' z' hz').1, Ptr.buf.injEq] at e
    have h1 : (zs.map Prod.fst)[n]? = some z.1 := by rw [List.getElem?_map, hz]; rfl
    have h2 : (zs.map Prod.fst)[n']? = some z.1 := by rw [List.getElem?_map, hz', e]; rfl
    have := (List.getElem?_inj (List.getElem?_eq_some_iff.1 h1).1 hnd').1 (h1.trans h2.symm)
    omega

/-! ## A leaf -/

def entry (z : Nat × Movie S) : Entry S := ⟨z.2, .buf z.1⟩

def tempView (l : Int) : View (Temp S) S := ⟨fun t _ i => t.name (l + i), fun t _ i => t.score (l + i)⟩

omit [Double S] in
theorem lawful_temp {J : Memory S → Prop} {A : Set Loc} (size : Int) :
    Lawful (tempArrays l) (tempView l) J A (S := S) size where
  getName _ _ _ := .refl
  getScore _ _ _ := .refl
  setName {i t m} p _ _ := by
    refine ⟨t.setName (l + i) p, m, fun _ => .refl, ?_, rfl, fun _ => rfl⟩
    funext j
    show Function.update t.name (l + i) p (l + j) = _
    by_cases hj : j = i
    · subst hj; simp
    · have hne : l + j ≠ l + i := by omega
      rw [Function.update_of_ne hj, Function.update_of_ne hne]
      rfl
  setScore {i t m} x _ _ := by
    refine ⟨t.setScore (l + i) x, m, fun _ => .refl, rfl, ?_, fun _ => rfl⟩
    funext j
    show Function.update t.score (l + i) x (l + j) = _
    by_cases hj : j = i
    · subst hj; simp
    · have hne : l + j ≠ l + i := by omega
      rw [Function.update_of_ne hj, Function.update_of_ne hne]
      rfl

omit [Double S] in
theorem leads_writeBack {us : List (Movie S)} {t : Temp S} (cs bs' : List Nat) (i : Int)
    (hi : l ≤ i) (hr : i + bs'.length ≤ r + 1) (hlen : us.length = bs'.length) (hnd : bs'.Nodup)
    (hsub : ∀ b ∈ bs', b ∈ bs) (hfits : ∀ u ∈ us, u.title.length + 1 ≤ MAX_LEN)
    (hb : Along (fun j b => m (.name d j) = .buf b) i bs')
    (ht : Along (fun j u => t.name j = .lit u.title ∧ t.score j = u.score) i us) :
    ∃ m', (∀ k, Leads (Apart d l r cs) (region d l r bs) (writeBack d t bs'.length i k) m k m') ∧
      Buffered d m' i (bs'.zip us) ∧
      ∀ x, (∀ j, i ≤ j → x ≠ .score d j) → (∀ b ∈ bs', x ≠ .buf b) → m' x = m x := by
  induction bs' generalizing i us m with
  | nil => exact ⟨m, fun _ => .refl, along_nil, fun _ _ _ => rfl⟩
  | cons b bs' ih =>
    cases us with
    | nil => simp at hlen
    | cons u us =>
      obtain ⟨hbi, hb⟩ := along_cons.1 hb
      obtain ⟨hti, ht⟩ := along_cons.1 ht
      obtain ⟨hbn, hnd⟩ := List.nodup_cons.1 hnd
      rw [List.length_cons] at hr
      let m1 : Memory S := Function.update m (.score d i) u.score
      let m2 : Memory S := Function.update m1 (.buf b) u.title
      have hm1 : ∀ x, x ≠ Loc.score d i → m1 x = m x := fun x hx => Function.update_of_ne hx _ _
      have hm2 : ∀ x, x ≠ Loc.buf b → m2 x = m1 x := fun x hx => Function.update_of_ne hx _ _
      have hb2 : Along (fun j b => m2 (.name d j) = .buf b) (i + 1) bs' :=
        hb.imp fun j c _ _ _ hc => by rw [hm2 _ (by simp), hm1 _ (by simp)]; exact hc
      obtain ⟨m', h, hbuf, hfr⟩ := ih (i + 1) (by omega) (by omega) (by simpa using hlen) hnd
        (fun c hc => hsub c (by simp [hc])) (fun v hv => hfits v (by simp [hv])) hb2 ht
      refine ⟨m', fun k => ?_, ?_, fun x hx hx' => ?_⟩
      · have hJ1 : Apart d l r cs m → Apart d l r cs m1 := fun hJ =>
          hJ.congr (fun j _ _ => hm1 _ (by simp)) fun _ _ => hm1 _ (by simp)
        have hJ2 : Apart d l r cs m1 → Apart d l r cs m2 := fun hJ =>
          hJ.congr (fun j _ _ => hm2 _ (by simp)) fun _ _ => hm2 _ (by simp)
        have hname : m1 (.name d i) = .buf b := by rw [hm1 _ (by simp)]; exact hbi
        rw [List.length_cons, writeBack, hti.1, hti.2]
        refine .trans (.write (cells_sub_region (score_mem_cells.2 ⟨hi, by omega⟩)) hJ1) ?_
        refine .trans (.read (.inl (cells_sub_region (name_mem_cells.2 ⟨hi, by omega⟩)))) ?_
        show Leads _ _ (strcpy (m1 (.name d i)) _ _) _ _ _
        rw [hname, strcpy, deref]
        simp only [hfits u (by simp), ↓reduceIte]
        exact .trans (.write (bufs_sub_region ⟨b, hsub b (by simp), rfl⟩) hJ2) (h k)
      · rw [List.zip_cons_cons]
        refine along_cons.2 ⟨⟨?_, ?_, ?_⟩, hbuf⟩
        · rw [hfr _ (fun _ _ => by simp) (fun _ _ => by simp), hm2 _ (by simp), hm1 _ (by simp)]
          exact hbi
        · rw [hfr _ (fun _ _ => by simp) fun c hc e => hbn (by cases e; exact hc)]
          exact Function.update_self ..
        · rw [hfr _ (fun j hj => by simp only [ne_eq, Loc.score.injEq]; omega) (fun _ _ => by simp),
            hm2 _ (by simp)]
          exact Function.update_self ..
      · rw [hfr x (fun j hj => hx j (by omega)) (fun c hc => hx' c (by simp [hc])),
          hm2 x (hx' b (by simp)), hm1 x (hx i (le_refl _))]

/-- A leaf puts its movies in order, in the buffers its cells point to. -/
theorem leads_leaf {zs : List (Nat × Movie S)} (cs : List Nat) (numOfMovies : Nat) (hl : 0 ≤ l) (hlr : l ≤ r)
    (hr : r < MAX_MOVIES) (hlen : l + zs.length = r + 1) (hn : zs.length ≤ numOfMovies)
    (hz : Buffered d m l zs) (hnd : (zs.map Prod.fst).Nodup)
    (hp : Sortable (key.length + 1) (zs.map Prod.snd)) :
    ∃ (m' : Memory S) (ys : List (Movie S)),
      (∀ k, Leads (Apart d l r cs) (region d l r (zs.map Prod.fst)) (leaf d numOfMovies l r k)
        m k m') ∧
      Arranged (zs.map Prod.snd) ys ∧
      Buffered d m' l ((zs.map Prod.fst).zip (ys.map Movie.secret)) := by
  let bs := zs.map Prod.fst
  obtain ⟨t1, h1, -, hn1, -⟩ := leads_copyNames (J := Apart d l r cs) (A := region d l r bs) (m := m)
    (d := d) (l := l) (r := r) cells_sub_region MAX_MOVIES 0 ⟨fun _ => .null, fun _ => Double.negOne⟩
  obtain ⟨t2, h2, hn2, hs2, -⟩ := leads_copyScores (J := Apart d l r cs) (A := region d l r bs)
    (m := m) (d := d) (l := l) (r := r) cells_sub_region MAX_MOVIES 0 t1
  have hes : Along ((tempView l).Has (bufs bs) t2 m) 0 (zs.map entry) := by
    refine along_map.2 fun j z hj => ?_
    have hlt := (List.getElem?_eq_some_iff.1 hj).1
    have hc := hz j z hj
    refine ⟨?_, ?_, ⟨z.1, List.mem_map_of_mem (List.mem_of_getElem? hj), rfl⟩, hc.2.1⟩
    · show t2.name (l + (0 + j)) = _
      rw [hn2, hn1 _ (by omega) (by omega), Int.zero_add]
      exact hc.1
    · show t2.score (l + (0 + j)) = _
      rw [hs2 _ (by omega) (by omega), Int.zero_add]
      exact hc.2.2
  have hmem : ∀ e ∈ zs.map entry, e.toMovie ∈ zs.map Prod.snd := by
    intro e he
    obtain ⟨z, hz, rfl⟩ := List.mem_map.1 he
    exact List.mem_map_of_mem hz
  have hne : zs.map entry ≠ [] := by
    intro h
    have : zs.length = 0 := by rw [← List.length_map (f := entry), h]; rfl
    omega
  obtain ⟨t3, m3, fs, h3, hperm, hsorted, hcells, hbuf⟩ :=
    (lawful_temp (J := Apart d l r cs) (A := bufs bs) (l := l) (r - l + 1)).sort
      numOfMovies (by omega) hne (by rw [List.length_map]; omega) hes
      (fun e he => hp.comparable _ (hmem e he))
      (fun e he => by have := hp.fits _ (hmem e he); omega)
  have hm3 : m3 = m := by
    funext x
    by_cases hx : x ∈ bufs bs
    · obtain ⟨b, -, rfl⟩ := hx; exact hbuf b
    · exact (h3 fun _ => .done).frame x hx
  subst hm3
  let ys := fs.map Entry.toMovie
  have hys : ys.Perm (zs.map Prod.snd) := by
    have := hperm.map Entry.toMovie
    rwa [List.map_map, show Entry.toMovie ∘ entry = (Prod.snd : Nat × Movie S → Movie S) from rfl]
      at this
  have hysl : ys.length = zs.length := by rw [hys.length_eq, List.length_map]
  have ht3 : Along (fun j u => t3.name j = .lit u.title ∧ t3.score j = u.score) l
      (ys.map Movie.secret) := by
    refine along_map.2 (along_map.2 fun j e he => ?_)
    have := along_map.1 hcells j e he
    rw [Int.zero_add] at this
    exact ⟨this.name, this.score⟩
  have hnames : Along (fun j b => m3 (.name d j) = .buf b) l bs :=
    along_map.2 fun j z hj => (hz j z hj).1
  obtain ⟨m4, h4, hbuf4, -⟩ := leads_writeBack (r := r) cs bs l (le_refl l)
    (by simp only [bs, List.length_map]; omega)
    (by simp only [bs, List.length_map, hysl]) hnd (fun _ h => h)
    (fun u hu => by
      obtain ⟨y, hy, rfl⟩ := List.mem_map.1 hu
      have := hp.fits y (hys.mem_iff.1 hy)
      rw [Movie.secret, List.length_append]
      omega)
    hnames ht3
  refine ⟨m4, ys, fun k => ?_, ⟨hys, List.pairwise_map.2 hsorted⟩, hbuf4⟩
  have hwb := writeBack_congr (d := d) (r := r) (n := (r - l + 1).toNat) (le_refl l) (by omega) k
  have hsort := sort_congr numOfMovies hlr hwb
  have hlen4 : bs.length = (r - l + 1).toNat := by simp only [bs, List.length_map]; omega
  rw [hlen4] at h4
  rw [leaf]
  refine (h1 _ (copyScores_congr hsort)).trans ((h2 _ hsort).trans ?_)
  exact ((h3 _).mono bufs_sub_region).trans (h4 k)

/-! ## A merge -/

/-- `takesLeft`, for movies in buffers. -/
def first (a b : Nat × Movie S) : Bool := takesLeft a.2 b.2

omit [Double S] in
theorem Apart.flagged (hown : ∀ i, l ≤ i → i ≤ r → ∃ b ∈ bs, m (.name d i) = .buf b)
    (hf : m (.copying d l r) = true) : Apart d l r bs m :=
  ⟨hown, fun _ _ hi _ hj _ => ⟨l, r, le_refl l, hi, hj, le_refl r, hf⟩⟩

omit [Double S] in
theorem leads_copyBack {zs : List (Nat × Movie S)} (i : Int) (hi : l ≤ i)
    (hr : i + zs.length ≤ r + 1) (hsub : ∀ z ∈ zs, z.1 ∈ bs) (hf : m (.copying d l r) = true) :
    ∃ m', (∀ k, Leads (Apart d l r bs) (region d l r bs)
        (copyBack d zs.length i ((zs.map entry).map Entry.cell) k) m k m') ∧
      Along (fun j z => m' (.name d j) = .buf z.1 ∧ m' (.score d j) = z.2.score) i zs ∧
      ∀ x, (∀ j, i ≤ j → x ≠ .name d j ∧ x ≠ .score d j) → m' x = m x := by
  induction zs generalizing i m with
  | nil => exact ⟨m, fun _ => .refl, along_nil, fun _ _ => rfl⟩
  | cons z zs ih =>
    rw [List.length_cons] at hr
    let m1 : Memory S := Function.update m (.score d i) z.2.score
    let m2 : Memory S := Function.update m1 (.name d i) (.buf z.1)
    have hm1 : ∀ x, x ≠ Loc.score d i → m1 x = m x := fun x hx => Function.update_of_ne hx _ _
    have hm2 : ∀ x, x ≠ Loc.name d i → m2 x = m1 x := fun x hx => Function.update_of_ne hx _ _
    obtain ⟨m', h, hcells, hfr⟩ := ih (m := m2) (i + 1) (by omega) (by omega)
      (fun y hy => hsub y (by simp [hy])) (by rw [hm2 _ (by simp), hm1 _ (by simp)]; exact hf)
    refine ⟨m', fun k => ?_, along_cons.2 ⟨⟨?_, ?_⟩, hcells⟩, fun x hx => ?_⟩
    · have hJ1 : Apart d l r bs m → Apart d l r bs m1 := fun hJ =>
        hJ.congr (fun j _ _ => hm1 _ (by simp)) fun _ _ => hm1 _ (by simp)
      have hJ2 : Apart d l r bs m1 → Apart d l r bs m2 := by
        intro hJ
        refine .flagged (fun j hj hj' => ?_) (by rw [hm2 _ (by simp), hm1 _ (by simp)]; exact hf)
        by_cases e : j = i
        · subst e
          exact ⟨z.1, hsub z (by simp), Function.update_self ..⟩
        · rw [hm2 _ (by simpa using e)]
          exact hJ.own j hj hj'
      refine .trans (.write (cells_sub_region (score_mem_cells.2 ⟨hi, by omega⟩)) hJ1) ?_
      exact .trans (.write (cells_sub_region (name_mem_cells.2 ⟨hi, by omega⟩)) hJ2) (h k)
    · rw [hfr _ fun j hj => ⟨by simp only [ne_eq, Loc.name.injEq]; omega, by simp⟩]
      exact Function.update_self ..
    · rw [hfr _ fun j hj => ⟨by simp, by simp only [ne_eq, Loc.score.injEq]; omega⟩,
        hm2 _ (by simp)]
      exact Function.update_self ..
    · obtain ⟨h1, h2⟩ := hx i (le_refl _)
      rw [hfr x fun j hj => hx j (by omega), hm2 x h1, hm1 x h2]

omit [Double S] in
theorem Buffered.title {i : Int} {zs : List (Nat × Movie S)} (h : Buffered d m i zs) :
    ∀ z ∈ zs, m (.buf z.1) = z.2.title := by
  intro z hz
  obtain ⟨n, hn⟩ := List.getElem?_of_mem hz
  exact (h n z hn).2.1

omit [Double S] in
theorem Buffered.shows {A : Set Loc} {i : Int} {zs : List (Nat × Movie S)} (h : Buffered d m i zs)
    (hA : ∀ z ∈ zs, Loc.buf z.1 ∈ A) : Along (Shows A d m) i (zs.map entry) :=
  along_map.2 (h.imp fun _ z _ _ hz hc => ⟨hc.1, hc.2.2, hA z hz, hc.2.1⟩)

/-- A merge moves the pointers, so that their titles are in order. -/
theorem leads_merge {us vs : List (Nat × Movie S)} (hl : 0 ≤ l) (hlr : l ≤ r)
    (hus : l + us.length = (l + r).tdiv 2 + 1) (hvs : (l + r).tdiv 2 + 1 + vs.length = r + 1)
    (hu : Buffered d m l us) (hv : Buffered d m ((l + r).tdiv 2 + 1) vs) (hnd : bs.Nodup)
    (hb : (us.map Prod.fst ++ vs.map Prod.fst).Perm bs) :
    ∃ m', (∀ k, Leads (Apart d l r bs) (region d l r bs) (merge d l r k) m k m') ∧
      Buffered d m' l (us.merge vs first) := by
  let zs := us.merge vs first
  have hperm : zs.Perm (us ++ vs) := List.merge_perm_append first
  have hlen : zs.length = us.length + vs.length := hperm.length_eq.trans List.length_append
  have hfst : (zs.map Prod.fst).Perm bs := by
    have := hperm.map Prod.fst
    rw [List.map_append] at this
    exact this.trans hb
  have hmem : ∀ z ∈ zs, z.1 ∈ bs := fun z hz => hfst.mem_iff.1 (List.mem_map_of_mem hz)
  have htitle : ∀ z ∈ zs, m (.buf z.1) = z.2.title := by
    intro z hz
    cases List.mem_append.1 (hperm.mem_iff.1 hz) with
    | inl hz => exact hu.title z hz
    | inr hz => exact hv.title z hz
  have hsub : ∀ z, z ∈ us ∨ z ∈ vs → Loc.buf z.1 ∈ region d l r bs := fun z hz =>
    bufs_sub_region ⟨z.1, hmem z (hperm.mem_iff.2 (List.mem_append.2 hz)), rfl⟩
  let m1 : Memory S := Function.update m (.copying d l r) true
  have hm1 : ∀ x, x ≠ Loc.copying d l r → m1 x = m x := fun x hx => Function.update_of_ne hx _ _
  have hf1 : m1 (.copying d l r) = true := Function.update_self ..
  obtain ⟨m2, h2, hcells, hfr⟩ := leads_copyBack (m := m1) l (le_refl l) (by omega) hmem hf1
  let m3 : Memory S := Function.update m2 (.copying d l r) false
  have hm3 : ∀ x, x ≠ Loc.copying d l r → m3 x = m2 x := fun x hx => Function.update_of_ne hx _ _
  have hbuf : Buffered d m3 l zs := by
    refine hcells.imp fun j z _ _ hz hc => ⟨?_, ?_, ?_⟩
    · rw [hm3 _ (by simp)]; exact hc.1
    · rw [hm3 _ (by simp), hfr _ (fun j _ => ⟨by simp, by simp⟩), hm1 _ (by simp)]
      exact htitle z hz
    · rw [hm3 _ (by simp)]; exact hc.2
  have hflag : Loc.copying d l r ∈ region d l r bs :=
    flags_sub_region ⟨l, r, le_refl l, hlr, le_refl r, rfl⟩
  refine ⟨m3, fun k => ?_, hbuf⟩
  refine (leads_mergeLoops cells_sub_region hl hlr (by simpa using hus) (by simpa using hvs)
    (hu.shows fun z hz => hsub z (.inl hz)) (hv.shows fun z hz => hsub z (.inr hz)) _).trans ?_
  have hmerge : (us.map entry).merge (vs.map entry) firstOf = zs.map entry :=
    (List.map_merge (f := entry) (r := first) (s := firstOf) fun _ _ _ _ => rfl).symm
  rw [hmerge, show (r - l + 1).toNat = zs.length by omega]
  refine .trans (.write hflag fun hJ => ?_) ((h2 _).trans (.write hflag fun _ => ?_))
  · refine .flagged (fun i hi hi' => ?_) hf1
    show ∃ b ∈ bs, m1 (.name d i) = _
    rw [hm1 _ (by simp)]
    exact hJ.own i hi hi'
  · exact hbuf.apart (by omega) hfst hnd

end SysProg.Movies.Process
