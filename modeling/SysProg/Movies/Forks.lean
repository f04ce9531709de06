import SysProg.Movies.Buffers

/-!
# SysProg.Movies.Forks

The tree of processes of the `PROCESS` build.

* `region_disjoint`, `Apart.join`: the two halves of a range share neither cells nor buffers, so
  that their invariants make up the one of the range.
* `cut`: where `mergesort` cuts a list.
* `leads_cut`: what is in the range in the end, over a permutation of its buffers.
* `leads_mergesort`: for plain titles the range ends up in order.
* `process_sorts`: the answer to a request, under every interleaving of the processes.
* `merge_repeats_slot`: while a merge is copying its result back, two cells hold the same buffer.
-/

namespace SysProg.Movies.Process

open SysProg.ForkJoin (Leads overlay overlay_mem overlay_notMem)
open SysProg.MergeTree (Cut)

variable {S : Type} [Double S] {d : Nat} {l r mid : Int} {bs cs : List Nat} {m : Memory S}

theorem region_disjoint (hbs : (bs ++ cs).Nodup) :
    Disjoint (region d l mid bs) (region d (mid + 1) r cs) := by
  rw [Set.disjoint_left]
  rintro x ((⟨i, h1, h2, hx⟩ | ⟨b, hb, hx⟩) | ⟨a, b, h1, h2, h3, hx⟩)
    ((⟨i', h1', h2', hx'⟩ | ⟨b', hb', hx'⟩) | ⟨a', b', h1', h2', h3', hx'⟩)
  · have : i = i' := by
      rcases hx with rfl | rfl <;> rcases hx' with h | h <;> cases h <;> rfl
    omega
  · rcases hx with rfl | rfl <;> cases hx'
  · rcases hx with rfl | rfl <;> cases hx'
  · rcases hx' with rfl | rfl <;> cases hx
  · subst hx; cases hx'; exact (List.disjoint_of_nodup_append hbs) hb hb'
  · subst hx; cases hx'
  · rcases hx' with rfl | rfl <;> cases hx
  · subst hx; cases hx'
  · subst hx; cases hx'; omega

theorem region_mono {l' r' : Int} {bs' : List Nat} (hl : l ≤ l') (hr : r' ≤ r)
    (hb : ∀ b ∈ bs', b ∈ bs) : region d l' r' bs' ⊆ region d l r bs := by
  rintro x ((⟨i, h1, h2, hx⟩ | ⟨b, hb', hx⟩) | ⟨a, b, h1, h2, h3, hx⟩)
  · exact cells_sub_region ⟨i, by omega, by omega, hx⟩
  · exact bufs_sub_region ⟨b, hb b hb', hx⟩
  · exact flags_sub_region ⟨a, b, by omega, h2, by omega, hx⟩

omit [Double S] in
/-- The halves of a range, as they are in two memories. -/
theorem Apart.join {mp mq : Memory S} (hp : Apart d l mid bs mp) (hq : Apart d (mid + 1) r cs mq)
    (hmid : l ≤ mid ∧ mid ≤ r) (hbs : (bs ++ cs).Nodup) :
    Apart d l r (bs ++ cs)
      (overlay (region d l mid bs) mp (overlay (region d (mid + 1) r cs) mq m)) := by
  have hdis : Disjoint (region d l mid bs) (region d (mid + 1) r cs) := region_disjoint hbs
  have hleft : ∀ x ∈ region d l mid bs,
      overlay (region d l mid bs) mp (overlay (region d (mid + 1) r cs) mq m) x = mp x :=
    fun x hx => overlay_mem hx
  have hright : ∀ x ∈ region d (mid + 1) r cs,
      overlay (region d l mid bs) mp (overlay (region d (mid + 1) r cs) mq m) x = mq x :=
    fun x hx => by rw [overlay_notMem fun hx' => hdis.le_bot ⟨hx', hx⟩, overlay_mem hx]
  have hnl : ∀ i, l ≤ i → i ≤ mid → Loc.name d i ∈ region d l mid bs :=
    fun i h h' => cells_sub_region (name_mem_cells.2 ⟨h, h'⟩)
  have hnr : ∀ i, mid + 1 ≤ i → i ≤ r → Loc.name d i ∈ region d (mid + 1) r cs :=
    fun i h h' => cells_sub_region (name_mem_cells.2 ⟨h, h'⟩)
  refine ⟨fun i hi hi' => ?_, fun i j hi hij hj e => ?_⟩
  · by_cases him : i ≤ mid
    · obtain ⟨b, hb, h⟩ := hp.own i hi him
      exact ⟨b, by simp [hb], by rw [hleft _ (hnl i hi him), h]⟩
    · obtain ⟨b, hb, h⟩ := hq.own i (by omega) hi'
      exact ⟨b, by simp [hb], by rw [hright _ (hnr i (by omega) hi'), h]⟩
  · by_cases hjm : j ≤ mid
    · rw [hleft _ (hnl i hi (by omega)), hleft _ (hnl j (by omega) hjm)] at e
      obtain ⟨a, b, h1, h2, h3, h4, hf⟩ := hp.distinct i j hi hij hjm e
      refine ⟨a, b, h1, h2, h3, by omega, ?_⟩
      rw [hleft _ (flags_sub_region ⟨a, b, h1, by omega, h4, rfl⟩), hf]
    · by_cases him : i ≤ mid
      · rw [hleft _ (hnl i hi him), hright _ (hnr j (by omega) hj)] at e
        obtain ⟨b, hb, h⟩ := hp.own i hi him
        obtain ⟨c, hc, h'⟩ := hq.own j (by omega) hj
        rw [h, h', Ptr.buf.injEq] at e
        exact absurd (e ▸ hc) (List.disjoint_of_nodup_append hbs hb)
      · rw [hright _ (hnr i (by omega) (by omega)), hright _ (hnr j (by omega) hj)] at e
        obtain ⟨a, b, h1, h2, h3, h4, hf⟩ := hq.distinct i j (by omega) hij hj e
        refine ⟨a, b, by omega, h2, h3, h4, ?_⟩
        rw [hright _ (flags_sub_region ⟨a, b, h1, by omega, h4, rfl⟩), hf]

omit [Double S] in
/-- The child and the parent, each with its half of the range. -/
theorem leads_fork {p q : Code S} {m₁ m₂ : Memory S} {us vs us' vs' : List (Nat × Movie S)}
    (hp : Leads (Apart d l mid (us.map Prod.fst)) (region d l mid (us.map Prod.fst)) p m .done m₁)
    (hq : Leads (Apart d (mid + 1) r (vs.map Prod.fst)) (region d (mid + 1) r (vs.map Prod.fst)) q m
      .done m₂)
    (hmid : l ≤ mid ∧ mid ≤ r) (hus : l + us.length = mid + 1)
    (hvs : mid + 1 + vs.length = r + 1) (hu : Buffered d m l us) (hv : Buffered d m (mid + 1) vs)
    (hnd : (us.map Prod.fst ++ vs.map Prod.fst).Nodup) (hu' : Buffered d m₁ l us')
    (hv' : Buffered d m₂ (mid + 1) vs') (hfu : (us'.map Prod.fst).Perm (us.map Prod.fst))
    (hfv : (vs'.map Prod.fst).Perm (vs.map Prod.fst)) :
    ∃ m₃, (∀ k, Leads (Apart d l r (us.map Prod.fst ++ vs.map Prod.fst))
        (region d l r (us.map Prod.fst ++ vs.map Prod.fst)) (.par p q k) m k m₃) ∧
      Buffered d m₃ l us' ∧ Buffered d m₃ (mid + 1) vs' := by
  have hdis : Disjoint (region d l mid (us.map Prod.fst)) (region d (mid + 1) r (vs.map Prod.fst)) :=
    region_disjoint hnd
  have hndu := (List.nodup_append.1 hnd).1
  have hndv := (List.nodup_append.1 hnd).2.1
  have hul : us'.length = us.length := by simpa using hfu.length_eq
  have hvl : vs'.length = vs.length := by simpa using hfv.length_eq
  refine ⟨_, fun k => .par hp hq hdis
    (region_mono (le_refl l) (by omega) fun _ h => List.mem_append_left _ h)
    (region_mono (by omega) (le_refl r) fun _ h => List.mem_append_right _ h)
    (fun _ => hu.apart hus (.refl _) hndu) (fun _ => hv.apart (by omega) (.refl _) hndv)
    fun mp mq _ hmp hmq _ _ => hmp.join hmq hmid hnd, ?_, ?_⟩
  · refine hu'.congr fun x hx => overlay_mem ?_
    rcases hx with hx | ⟨b, hb, hx⟩
    · exact cells_sub_region (cells_mono (le_refl _) (by omega) hx)
    · exact bufs_sub_region ⟨b, hfu.mem_iff.1 hb, hx⟩
  · refine hv'.congr fun x hx => ?_
    have hx : x ∈ region d (mid + 1) r (vs.map Prod.fst) := by
      rcases hx with hx | ⟨b, hb, hx⟩
      · exact cells_sub_region (cells_mono (le_refl _) (by omega) hx)
      · exact bufs_sub_region ⟨b, hfv.mem_iff.1 hb, hx⟩
    rw [overlay_notMem fun hx' => hdis.le_bot ⟨hx', hx⟩, overlay_mem hx]

/-! ## Where a list is cut -/

/-- `mergesort` with `n` levels to go. -/
def cut {α : Type} : Nat → List α → Cut α
  | 0, xs => .leaf xs
  | n + 1, xs =>
    if xs.length = 0 then .leaf []
    else .node (cut n (xs.take ((xs.length + 1) / 2))) (cut n (xs.drop ((xs.length + 1) / 2)))

theorem cut_nil {α : Type} (n : Nat) : cut n ([] : List α) = .leaf [] := by
  cases n with
  | zero => rfl
  | succ n => rw [cut, if_pos List.length_nil]

theorem cut_append {α : Type} {us vs : List α} (n : Nat) (h : us.length = ((us ++ vs).length + 1) / 2)
    (hne : (us ++ vs).length ≠ 0) : cut (n + 1) (us ++ vs) = .node (cut n us) (cut n vs) := by
  rw [cut, if_neg hne, ← h, List.take_left, List.drop_left]

theorem cut_flatten {α : Type} (n : Nat) (xs : List α) : (cut n xs).flatten = xs := by
  induction n generalizing xs with
  | zero => rfl
  | succ n ih =>
    rw [cut]
    split
    · rename_i h
      exact (List.length_eq_zero_iff.1 h).symm
    · rw [Cut.flatten, ih, ih, List.take_append_drop]

/-- `mergesort` sorts its range leaf by leaf and merges, in the buffers its cells point to. -/
theorem leads_cut (numOfMovies level : Nat) (hlevel : level ≤ MAX_LEVEL)
    {zs : List (Nat × Movie S)} (hl : 0 ≤ l) (hr : r < MAX_MOVIES) (hlen : l + zs.length = r + 1)
    (hn : zs.length ≤ numOfMovies) (hz : Buffered d m l zs) (hnd : (zs.map Prod.fst).Nodup)
    (hp : Sortable (key.length + 1) (zs.map Prod.snd)) :
    ∃ (m' : Memory S) (zs' : List (Nat × Movie S)) (ys : List (Movie S)),
      (∀ k, Leads (Apart d l r (zs.map Prod.fst)) (region d l r (zs.map Prod.fst))
        (mergesort d numOfMovies l r level hlevel k) m k m') ∧
      Buffered d m' l zs' ∧ (zs'.map Prod.fst).Perm (zs.map Prod.fst) ∧
      zs'.map Prod.snd = ys.map Movie.secret ∧
      (cut (MAX_LEVEL - level) (zs.map Prod.snd)).Yields Arranged takesMarked ys := by
  induction hdepth : MAX_LEVEL - level using Nat.strong_induction_on
    generalizing level l r m zs with
  | _ n ih =>
  subst hdepth
  by_cases hlr : l > r
  · obtain rfl := List.length_eq_zero_iff.1 (show zs.length = 0 by omega)
    refine ⟨m, [], [], fun k => ?_, along_nil, .refl _, rfl, ?_⟩
    · rw [mergesort, if_pos hlr]
      exact .refl
    · rw [List.map_nil, cut_nil]
      exact ⟨.refl _, .nil⟩
  by_cases hmax : level = MAX_LEVEL
  · obtain ⟨m', ys, h, hsorted, hbuf⟩ :=
      leads_leaf (zs.map Prod.fst) numOfMovies hl (by omega) hr hlen hn hz hnd hp
    have hyl : (zs.map Prod.fst).length = (ys.map Movie.secret).length := by
      rw [List.length_map, List.length_map, hsorted.1.length_eq, List.length_map]
    refine ⟨m', _, ys, fun k => ?_, hbuf, ?_, ?_, ?_⟩
    · rw [mergesort, if_neg hlr, dif_pos hmax]
      exact h k
    · rw [List.map_fst_zip hyl.le]
    · rw [List.map_snd_zip hyl.ge]
    · rw [hmax, Nat.sub_self]
      exact hsorted
  have hmid := mid_bounds hl (not_lt.1 hlr)
  obtain ⟨us, vs, rfl, hus⟩ : ∃ us vs, zs = us ++ vs ∧ l + us.length = (l + r).tdiv 2 + 1 :=
    ⟨zs.take ((l + r).tdiv 2 + 1 - l).toNat, zs.drop ((l + r).tdiv 2 + 1 - l).toNat,
      (List.take_append_drop _ _).symm, by rw [List.length_take]; omega⟩
  have hmid' : (l + r).tdiv 2 = (l + r) / 2 := Int.tdiv_eq_ediv_of_nonneg (by omega)
  have hcut : cut (MAX_LEVEL - level) ((us ++ vs).map Prod.snd) =
      .node (cut (MAX_LEVEL - (level + 1)) (us.map Prod.snd))
        (cut (MAX_LEVEL - (level + 1)) (vs.map Prod.snd)) := by
    rw [show MAX_LEVEL - level = MAX_LEVEL - (level + 1) + 1 by omega, List.map_append]
    rw [List.length_append] at hlen
    refine cut_append _ ?_ ?_ <;> simp only [List.length_append, List.length_map] <;> omega
  rw [hcut]
  rw [List.length_append] at hlen hn
  obtain ⟨hzu, hzv⟩ : Buffered d m l us ∧ Buffered d m ((l + r).tdiv 2 + 1) vs := by
    have := along_append.1 hz
    rwa [hus] at this
  simp only [List.map_append] at hnd hp ⊢
  obtain ⟨hpu, hpv⟩ := hp.append
  have hndu := (List.nodup_append.1 hnd).1
  have hndv := (List.nodup_append.1 hnd).2.1
  obtain ⟨m1, us', yu, h1, hbu, hfu, hsu, hyu⟩ := ih (MAX_LEVEL - (level + 1)) (by omega)
    (level + 1) (by omega) hl (by omega) hus (by omega) hzu hndu hpu rfl
  obtain ⟨m2, vs', yv, h2, hbv, hfv, hsv, hyv⟩ := ih (MAX_LEVEL - (level + 1)) (by omega)
    (level + 1) (by omega) (by omega) hr (by omega) (by omega) hzv hndv hpv rfl
  obtain ⟨m3, h3, hbu3, hbv3⟩ := leads_fork (h1 .done) (h2 .done) ⟨hmid.1, hmid.2.1⟩ hus (by omega)
    hzu hzv hnd hbu hbv hfu hfv
  have hul : us'.length = us.length := by simpa using hfu.length_eq
  have hvl : vs'.length = vs.length := by simpa using hfv.length_eq
  obtain ⟨m4, h4, hb4⟩ := leads_merge hl (not_lt.1 hlr) (by omega) (by omega) hbu3 hbv3 hnd
    (hfu.append hfv)
  have hperm : (us'.merge vs' first).Perm (us' ++ vs') := List.merge_perm_append first
  refine ⟨m4, us'.merge vs' first, yu.merge yv takesMarked, fun k => ?_, hb4, ?_, ?_,
    ⟨yu, yv, hyu, hyv, rfl⟩⟩
  · rw [mergesort, if_neg hlr, dif_neg hmax]
    exact (h3 _).trans (h4 k)
  · have := hperm.map Prod.fst
    rw [List.map_append] at this
    exact this.trans (hfu.append hfv)
  · have hsnd : (us'.merge vs' first).map Prod.snd =
        (us'.map Prod.snd).merge (vs'.map Prod.snd) takesLeft :=
      List.map_merge fun _ _ _ _ => rfl
    rw [hsnd, hsu, hsv, merge_marked]

/-- `mergesort` puts the movies of its range in order, in the buffers its cells point to. -/
theorem leads_mergesort (numOfMovies level : Nat) (hlevel : level ≤ MAX_LEVEL)
    {zs : List (Nat × Movie S)} (hl : 0 ≤ l) (hr : r < MAX_MOVIES) (hlen : l + zs.length = r + 1)
    (hn : zs.length ≤ numOfMovies) (hz : Buffered d m l zs) (hnd : (zs.map Prod.fst).Nodup)
    (hp : Proper (key.length + 1) (zs.map Prod.snd)) :
    ∃ (m' : Memory S) (zs' : List (Nat × Movie S)) (ys : List (Movie S)),
      (∀ k, Leads (Apart d l r (zs.map Prod.fst)) (region d l r (zs.map Prod.fst))
        (mergesort d numOfMovies l r level hlevel k) m k m') ∧
      Buffered d m' l zs' ∧ (zs'.map Prod.fst).Perm (zs.map Prod.fst) ∧
      zs'.map Prod.snd = ys.map Movie.secret ∧ ys.Perm (zs.map Prod.snd) ∧
      ys.Pairwise (fun a b => rank a ≤ rank b) := by
  obtain ⟨m', zs', ys, h, hbuf, hfst, hsnd, hyields⟩ :=
    leads_cut numOfMovies level hlevel hl hr hlen hn hz hnd hp.sortable
  obtain ⟨hperm, hsorted⟩ := yields_plain hyields (by rwa [cut_flatten])
  rw [cut_flatten] at hperm
  exact ⟨m', zs', ys, h, hbuf, hfst, hsnd, hperm, hsorted⟩

/-! ## A request -/

/-- The movies with the buffers they are put in, from buffer `len` on. -/
def numbered (len : Nat) (xs : List (Movie S)) : List (Nat × Movie S) :=
  (List.range' len xs.length).zip xs

omit [Double S] in
theorem numbered_fst (len : Nat) (xs : List (Movie S)) :
    (numbered len xs).map Prod.fst = List.range' len xs.length :=
  List.map_fst_zip (by rw [List.length_range'])

omit [Double S] in
theorem numbered_snd (len : Nat) (xs : List (Movie S)) : (numbered len xs).map Prod.snd = xs :=
  List.map_snd_zip (by rw [List.length_range'])

variable {P : Type} (cross : P → P → S) (req : Request P) (movies : List (MovieProfile P))

omit [Double S] in
theorem leads_collect (len : Nat) (hfits : ∀ x ∈ matching cross req movies, x.title.length < MAX_LEN) :
    ∃ m' : Memory S, (∀ k, Leads anything Set.univ (collect cross req d movies len k) m
        (k (len + (matching cross req movies).length)) m') ∧
      Buffered d m' len (numbered len (matching cross req movies)) ∧
      ∀ x, (∀ i : Int, len ≤ i → x ≠ .name d i ∧ x ≠ .score d i) →
        (∀ b : Nat, len ≤ b → x ≠ .buf b) → m' x = m x := by
  induction movies generalizing len m with
  | nil =>
    refine ⟨m, fun k => ?_, along_nil, fun _ _ _ => rfl⟩
    simp only [matching, List.filter_nil, List.map_nil, List.length_nil, collect, Nat.add_zero]
    exact .refl
  | cons mv movies ih =>
    by_cases hw : wanted req mv = true
    · have hm : matching cross req (mv :: movies) =
          ⟨mv.title, cross mv.profile req.profile⟩ :: matching cross req movies := by
        simp only [matching, List.filter_cons_of_pos hw, List.map_cons]
      rw [hm] at hfits ⊢
      have hfit : mv.title.length + 1 ≤ MAX_LEN := hfits _ (List.mem_cons_self ..)
      let m1 : Memory S := Function.update m (.name d len) (.buf len)
      let m2 : Memory S := Function.update m1 (.buf len) mv.title
      let m3 : Memory S := Function.update m2 (.score d len) (cross mv.profile req.profile)
      have hm1 : ∀ x, x ≠ Loc.name d len → m1 x = m x := fun x hx => Function.update_of_ne hx _ _
      have hm2 : ∀ x, x ≠ Loc.buf len → m2 x = m1 x := fun x hx => Function.update_of_ne hx _ _
      have hm3 : ∀ x, x ≠ Loc.score d len → m3 x = m2 x := fun x hx => Function.update_of_ne hx _ _
      obtain ⟨m', h, hl, hfr⟩ := ih (m := m3) (len + 1) fun x hx => hfits x (by simp [hx])
      have hlen : ((len + 1 : Nat) : Int) = (len : Int) + 1 := by omega
      refine ⟨m', fun k => ?_, ?_, fun x hx hb => ?_⟩
      · rw [collect, if_pos hw]
        refine .trans (.write trivial fun _ => trivial) (.trans (.read (.inl trivial)) ?_)
        rw [Function.update_self, strcpy, deref]
        simp only [hfit, ↓reduceIte]
        refine .trans (.write trivial fun _ => trivial) (.trans (.write trivial fun _ => trivial) ?_)
        rw [List.length_cons, show len + ((matching cross req movies).length + 1) =
          len + 1 + (matching cross req movies).length by omega]
        exact h k
      · rw [numbered, List.length_cons, List.range'_succ, List.zip_cons_cons]
        refine along_cons.2 ⟨⟨?_, ?_, ?_⟩, by rw [← hlen]; exact hl⟩
        · rw [hfr _ (fun i hi => ⟨by simp only [ne_eq, Loc.name.injEq]; omega, by simp⟩)
            (fun _ _ => by simp), hm3 _ (by simp), hm2 _ (by simp)]
          exact Function.update_self ..
        · rw [hfr _ (fun i hi => ⟨by simp, by simp⟩)
            (fun b hb => by simp only [ne_eq, Loc.buf.injEq]; omega), hm3 _ (by simp)]
          exact Function.update_self ..
        · rw [hfr _ (fun i hi => ⟨by simp, by simp only [ne_eq, Loc.score.injEq]; omega⟩)
            (fun _ _ => by simp)]
          exact Function.update_self ..
      · obtain ⟨h1, h2⟩ := hx len (le_refl _)
        rw [hfr x (fun i hi => hx i (by omega)) (fun b hb' => hb b (by omega)), hm3 x h2,
          hm2 x (hb len (le_refl _)), hm1 x h1]
    · have hm : matching cross req (mv :: movies) = matching cross req movies := by
        simp only [matching, List.filter_cons_of_neg hw]
      rw [hm] at hfits ⊢
      obtain ⟨m', h, hrest⟩ := ih (m := m) len hfits
      refine ⟨m', fun k => ?_, hrest⟩
      rw [collect, if_neg hw]
      exact h k

/-- The processes of a request from the call of `mergesort` on. -/
def sorting (d : Nat) : Code S :=
  mergesort d movies.length 0 ((matching cross req movies).length - 1) 0 (Nat.zero_le _)
    (printMovies d (matching cross req movies).length .done)

/-- The cells hold the movies `ys`, each in a buffer of its own among `bs`. -/
def Answers (d : Nat) (m : Memory S) (bs : List Nat) (ys : List (Movie S)) : Prop :=
  ∃ zs, Buffered d m 0 zs ∧ (zs.map Prod.fst).Perm bs ∧ zs.map Prod.snd = ys

theorem leads_sorting {n : Nat} (hn : n = (matching cross req movies).length)
    (hmax : movies.length ≤ MAX_MOVIES) (hp : Sortable (key.length + 1) (matching cross req movies))
    (hb : Buffered d m 0 (numbered 0 (matching cross req movies))) :
    ∃ (m' : Memory S) (ys : List (Movie S)),
      (cut MAX_LEVEL (matching cross req movies)).Yields Arranged takesMarked ys ∧
      Leads (Apart d 0 (n - 1) (List.range' 0 n)) (region d 0 (n - 1) (List.range' 0 n) ∪ {.out d})
        (sorting cross req movies d) m .done m' ∧
      Answers d m' (List.range' 0 n) (ys.map Movie.secret) ∧
      m' (.out d) = ys.map fun x => x.title ++ key := by
  subst hn
  let n := (matching cross req movies).length
  have hle : n ≤ movies.length := by
    simp only [n, matching, List.length_map]
    exact List.length_filter_le _ _
  have hzl : (numbered 0 (matching cross req movies)).length = n := by
    simp [numbered, n]
  obtain ⟨m1, zs, ys, h1, hbuf, hfst, hsnd, hyields⟩ := leads_cut (d := d)
    (l := 0) (r := (n : Int) - 1) (m := m) movies.length 0 (Nat.zero_le _) (le_refl 0) (by omega) (by omega)
    (hzl.trans_le hle) hb (by rw [numbered_fst]; exact List.nodup_range') (by rw [numbered_snd]; exact hp)
  rw [numbered_snd] at hyields
  rw [numbered_fst] at hfst h1
  have hys : zs.length = n := by simpa [n] using hfst.length_eq
  have hyl : ys.length = n := by rw [(yields_perm hyields).length_eq, cut_flatten]
  have hts : Along (fun j t => Titled (region d 0 (n - 1) (List.range' 0 n) ∪ {.out d}) m1
      (m1 (.name d j)) t) 0 (ys.map fun x => x.title ++ key) := by
    have : (ys.map fun x => x.title ++ key) = zs.map fun z => z.2.title := by
      have := congrArg (List.map Movie.title) hsnd
      rw [List.map_map, List.map_map] at this
      exact this.symm
    rw [this]
    refine along_map.2 (hbuf.imp fun j z _ _ hz hc => ?_)
    rw [hc.1]
    exact ⟨.inl (bufs_sub_region ⟨z.1, hfst.mem_iff.1 (List.mem_map_of_mem hz), rfl⟩), hc.2.1⟩
  obtain ⟨m2, h2, hout, hfr⟩ := leads_printMovies (J := Apart d 0 (n - 1) (List.range' 0 n))
    (A := region d 0 (n - 1) (List.range' 0 n) ∪ {.out d}) n
    (ys.map fun x => x.title ++ key)
    (fun _ _ h hJ => hJ.congr (fun _ _ _ => h _ (by simp)) fun _ _ => h _ (by simp))
    (cells_sub_region.trans Set.subset_union_left) (Set.mem_union_right _ rfl)
    (by rw [List.length_map, hyl]) hts
  refine ⟨m2, ys, hyields, ?_, ⟨zs, ?_, hfst, hsnd⟩, hout⟩
  · exact ((h1 _).mono Set.subset_union_left).trans (h2 .done)
  · refine hbuf.congr fun x hx => hfr x fun e => ?_
    subst e
    rcases hx with ⟨i, -, -, h | h⟩ | ⟨b, -, h⟩ <;> cases h

/-- Under every interleaving of the processes that sort for a request: the answer, and the buffers
the cells hold meanwhile. -/
theorem process_sorts (m : Memory S) (hmax : movies.length ≤ MAX_MOVIES)
    (hp : Proper (key.length + 1) (matching cross req movies)) :
    ∃ (m₁ : Memory S) (ys : List (Movie S)), ys.Perm (matching cross req movies) ∧
      ys.Pairwise InOrder ∧
      ForkJoin.Correct (dealRequest cross movies req d .done) m (fun f =>
        Answers d f (List.range' 0 ys.length) (ys.map Movie.secret) ∧
        f (.out d) = ys.map fun x => x.title ++ key) ∧
      ForkJoin.Steps (dealRequest cross movies req d .done) m (sorting cross req movies d) m₁ ∧
      ForkJoin.Throughout (Apart d 0 (ys.length - 1) (List.range' 0 ys.length))
        (sorting cross req movies d) m₁ := by
  obtain ⟨m1, h1, hb, -⟩ := leads_collect (d := d) (m := m) cross req movies 0
    fun x hx => by have := hp.fits x hx; omega
  obtain ⟨m2, ys, hyields, h2, hans, hout⟩ :=
    leads_sorting cross req movies rfl hmax hp.sortable hb
  obtain ⟨hperm, hsorted⟩ := yields_plain hyields (by rwa [cut_flatten])
  rw [cut_flatten] at hperm
  have hc := (hp.perm hperm).comparable
  have h3 := h1 fun len => mergesort d movies.length 0 (len - 1) 0 (Nat.zero_le _)
    (printMovies d len .done)
  rw [Nat.zero_add] at h3
  have hapart : Apart d 0 ((matching cross req movies).length - 1)
      (List.range' 0 (matching cross req movies).length) m1 :=
    hb.apart (by simp [numbered]) (by rw [numbered_fst]) List.nodup_range'
  refine ⟨m1, ys, hperm, hsorted.imp_of_mem fun ha hb hab => ?_, ?_, h3.steps, ?_⟩
  · exact (rank_le_iff (hc _ ha) (hc _ hb)).1 hab
  · rw [hperm.length_eq]
    have hall := h3.trans ((h2.forget (I := anything) fun _ => trivial).mono (Set.subset_univ _))
    exact hall.correct ⟨hans, hout⟩
  · rw [hperm.length_eq]
    exact h2.throughout_done hapart

theorem process_sorts_two :
    ∃ (m₁ : Memory Int) (ys : List (Movie Int)), ys.Perm (matching (· * ·) everything twoMovies) ∧
      ys.Pairwise InOrder ∧
      ForkJoin.Correct (dealRequest (· * ·) twoMovies everything 0 .done) blank (fun f =>
        Answers 0 f (List.range' 0 ys.length) (ys.map Movie.secret) ∧
        f (.out 0) = ys.map fun x => x.title ++ key) ∧
      ForkJoin.Steps (dealRequest (· * ·) twoMovies everything 0 .done) blank
        (sorting (· * ·) everything twoMovies 0) m₁ ∧
      ForkJoin.Throughout (Apart 0 0 (ys.length - 1) (List.range' 0 ys.length))
        (sorting (· * ·) everything twoMovies 0) m₁ :=
  process_sorts (· * ·) everything twoMovies blank (by decide) twoMovies_proper

theorem leads_single {d : Nat} {m : Memory Int} {i : Int} {b : Nat} {x : Movie Int} (hi : 0 ≤ i)
    (hmax : i < MAX_MOVIES) (hz : Buffered d m i [(b, x)]) (hp : Proper (key.length + 1) [x]) :
    ∃ m', Leads (Apart d i i [b]) (region d i i [b])
      (mergesort d 2 i i 1 (by decide) .done) m .done m' ∧ Buffered d m' i [(b, x.secret)] := by
  obtain ⟨m', zs, ys, h, hbuf, hfst, hsnd, hperm, -⟩ := leads_mergesort (d := d) (l := i) (r := i)
    (m := m) 2 1 (by decide) hi hmax (by simp) (by simp) hz (by simp) hp
  obtain rfl := List.perm_singleton.1 hperm
  have hfst := List.perm_singleton.1 hfst
  refine ⟨m', h .done, ?_⟩
  have hzs : zs = [(b, x.secret)] := by
    cases zs with
    | nil => simp at hfst
    | cons z zs =>
      simp only [List.map_cons, List.map_nil, List.cons.injEq, List.map_eq_nil_iff] at hfst hsnd
      obtain ⟨z1, z2⟩ := z
      simp only at hfst hsnd
      rw [hfst.1, hsnd.1, hfst.2]
  rw [← hzs]
  exact hbuf

/-- While the two titles change places, both cells hold the buffer of the second one. -/
theorem merge_repeats_slot :
    ∃ (m₁ : Memory Int) (p : Code Int) (f : Memory Int),
      ForkJoin.Steps (dealRequest (· * ·) twoMovies everything 0 .done) blank
        (sorting (· * ·) everything twoMovies 0) m₁ ∧
      ForkJoin.Steps (sorting (· * ·) everything twoMovies 0) m₁ p f ∧
      f (.name 0 0) = f (.name 0 1) := by
  obtain ⟨m1, h1, hb, -⟩ := leads_collect (d := 0) (m := blank) (· * ·) everything twoMovies 0
    fun x hx => by have := twoMovies_proper.fits x hx; omega
  have hp := twoMovies_proper
  rw [twoMovies_matching] at h1 hb hp
  obtain ⟨hp0, hp1⟩ : Proper (key.length + 1) [⟨['a'], (1 : Int)⟩] ∧
      Proper (key.length + 1) [⟨['b'], (2 : Int)⟩] :=
    (show Proper _ ([_] ++ [_]) from hp).append
  obtain ⟨hb0, hb1⟩ : Buffered 0 m1 0 [(0, ⟨['a'], 1⟩)] ∧ Buffered 0 m1 1 [(1, ⟨['b'], 2⟩)] :=
    along_append.1 hb
  obtain ⟨m2, h2, hb2⟩ := leads_single (le_refl 0) (by decide) hb0 hp0
  obtain ⟨m3, h3, hb3⟩ := leads_single (by decide) (by decide) hb1 hp1
  obtain ⟨m4, h4, hu, hv⟩ := leads_fork h2 h3 (by decide) rfl rfl hb0 hb1 (by decide)
    hb2 hb3 (by exact .refl _) (by exact .refl _)
  have hsorting : sorting (· * ·) everything twoMovies 0 =
      .par (mergesort 0 2 0 0 1 (by decide) .done) (mergesort 0 2 1 1 1 (by decide) .done)
        (merge 0 0 1 (printMovies 0 2 .done)) := by
    rw [sorting, twoMovies_matching, mergesort, if_neg (by decide), dif_neg (by decide)]
    rfl
  have hmerged : (([(0, (⟨['a'], 1⟩ : Movie Int).secret)].map entry).merge
      ([(1, (⟨['b'], 2⟩ : Movie Int).secret)].map entry) firstOf).map Entry.cell =
      [(.buf 1, 2), (.buf 0, 1)] := by
    rw [List.map_singleton, List.map_singleton, List.cons_merge_cons, if_neg (by decide),
      List.merge_right]
    rfl
  let k : Code Int := .write (.copying 0 0 1) false (printMovies 0 2 .done)
  have h5 := leads_mergeLoops (J := anything) (A := Set.univ) (d := 0) (l := 0) (r := 1) (m := m4)
    (Set.subset_univ _) (by decide) (by decide) (by rfl) (by rfl)
    (hu.shows fun _ _ => trivial) (hv.shows fun _ _ => trivial)
    fun temp => .write (.copying 0 0 1) true (copyBack 0 2 0 temp k)
  rw [hmerged] at h5
  let m5 : Memory Int := Function.update m4 (.copying 0 0 1) true
  let m6 : Memory Int := Function.update m5 (.score 0 0) 2
  let m7 : Memory Int := Function.update m6 (.name 0 0) (.buf 1)
  refine ⟨m1, copyBack 0 1 1 [(.buf 0, 1)] k, m7, (h1 fun len => mergesort 0 2 0 (len - 1) 0
    (Nat.zero_le _) (printMovies 0 len .done)).steps, ?_, ?_⟩
  · rw [hsorting]
    refine (h4 _).steps.trans (h5.steps.trans ?_)
    exact .tail (.tail (.tail .refl .write) .write) .write
  · have h7 : m7 (.name 0 0) = .buf 1 := Function.update_self ..
    exact h7.trans (along_cons.1 hv).1.1.symm

end SysProg.Movies.Process
