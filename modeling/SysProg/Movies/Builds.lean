import SysProg.Movies.Forks
import SysProg.Movies.Thread

/-!
# SysProg.Movies.Builds

The answers of the two builds to one request.

* `thread_writes`, `process_writes`: the answer of either build, as the merge sort of a cut.
* `CutsAgree`: neither build cuts a list between movies the comparisons disagree on, where the other
  one sorts them as one leaf.
* `builds_agree_iff`: that is when the answers are the same.
-/

namespace SysProg.Movies

open SysProg.MergeTree (Cut)

variable {S : Type} [Double S]

/-- In each stretch of the list that one build sorts as a leaf, the leaves of the other build do not
part movies on which the comparisons of `sort` and `merge` disagree. -/
def CutsAgree (xs : List (Movie S)) : Prop :=
  ∀ ls ∈ Cut.finer (Thread.cut xs) (Process.cut MAX_LEVEL xs), ls.Pairwise Compatible

theorem cuts_fit {α : Type} (n : Nat) (xs : List α) : Cut.Fits (Thread.cut xs) (Process.cut n xs) := by
  induction n generalizing xs with
  | zero =>
    have h := Thread.cut_flatten xs
    rw [Process.cut]
    cases hc : Thread.cut xs with
    | leaf ys => rw [hc] at h; exact h
    | node l r => rw [hc] at h; exact h
  | succ n ih =>
    rw [Thread.cut]
    split
    · exact (Process.cut_flatten (n + 1) xs).symm
    · rename_i hbig
      have hne : xs.length ≠ 0 := by
        rw [Thread.SIZE_LIMIT] at hbig
        omega
      rw [Process.cut, if_neg hne]
      exact ⟨ih _, ih _⟩

/-! ## What is written -/

/-- The titles of an answer, by the ranks of the movies. -/
def titles (rs : List (Intᵒᵈ ×ₗ Text)) : List Text := rs.map fun r => (ofLex r).2 ++ key

/-- The answer to a request for the movies `xs` that are cut to `t`. -/
def answer (t : Cut (Movie S)) : List Text := titles ((t.map rank).sorted mark)

theorem yields_answer {t : Cut (Movie S)} {ys : List (Movie S)}
    (h : t.Yields Arranged takesMarked ys) (hc : ∀ x ∈ t.flatten, x.Comparable) :
    (ys.map fun x => x.title ++ key) = answer t := by
  obtain ⟨-, hy⟩ := h.map_eq (f := mark) (g := rank) (fun _ _ _ h => h)
    fun a ha b hb => takesMarked_eq (hc a ha) (hc b hb)
  rw [answer, ← hy, titles, List.map_map]
  rfl

variable {P : Type} (cross : P → P → S) (req : Request P) (movies : List (MovieProfile P)) {d : Nat}

theorem thread_writes (m : Memory S) (hs : Sortable 1 (matching cross req movies)) :
    ForkJoin.Correct (Thread.dealRequest cross movies req d .done) m fun f =>
      f (.out d) = answer (Thread.cut (matching cross req movies)) := by
  obtain ⟨m', ys, h, hyields, -, hout⟩ := Thread.leads_request cross req movies (d := d) (m := m) hs
  refine (h .done).correct (hout.trans (yields_answer hyields ?_))
  rw [Thread.cut_flatten]
  exact hs.comparable

theorem process_writes (m : Memory S) (hmax : movies.length ≤ MAX_MOVIES)
    (hs : Sortable (key.length + 1) (matching cross req movies)) :
    ForkJoin.Correct (Process.dealRequest cross movies req d .done) m fun f =>
      f (.out d) = answer (Process.cut MAX_LEVEL (matching cross req movies)) := by
  obtain ⟨m1, h1, hb, -⟩ := Process.leads_collect (d := d) (m := m) cross req movies 0
    fun x hx => by have := hs.fits x hx; omega
  obtain ⟨m2, ys, hyields, h2, -, hout⟩ := Process.leads_sorting cross req movies rfl hmax hs hb
  have h3 := h1 fun len => Process.mergesort d movies.length 0 (len - 1) 0 (Nat.zero_le _)
    (printMovies d len .done)
  rw [Nat.zero_add] at h3
  have hall := h3.trans ((h2.forget (I := anything) fun _ => trivial).mono (Set.subset_univ _))
  refine hall.correct (hout.trans (yields_answer hyields ?_))
  rw [Process.cut_flatten]
  exact hs.comparable

/-! ## When the answers are the same -/

theorem sorted_scores (t : Cut (Movie S)) :
    ((t.map rank).sorted mark).Pairwise fun a b => (ofLex a).1 ≤ (ofLex b).1 := by
  induction t with
  | leaf xs =>
    exact (List.pairwise_insertionSort (· ≤ ·) (xs.map rank)).imp fun h => (Prod.Lex.le_iff'.1 h).1
  | node l r ihl ihr =>
    refine MergeTree.pairwise_merge (fun _ _ _ h h' => h.trans h') (fun a _ b _ h => ?_)
      (fun a _ b _ h => ?_) ihl ihr
    · rw [MergeTree.before, decide_eq_true_iff] at h
      exact (Prod.Lex.lt_iff'.1 h).1
    · rw [MergeTree.before, decide_eq_true_iff, not_lt] at h
      exact (Prod.Lex.le_iff'.1 h).1

/-- The scores come in the same order anyway, so that the titles decide. -/
theorem answer_eq_iff {t s : Cut (Movie S)} (h : Cut.Fits t s) :
    answer t = answer s ↔ (t.map rank).sorted mark = (s.map rank).sorted mark := by
  constructor
  · intro htitles
    have hperm : ((t.map rank).sorted mark).Perm ((s.map rank).sorted mark) := by
      refine (Cut.sorted_perm _).trans (List.Perm.trans ?_ (Cut.sorted_perm _).symm)
      rw [(h.map rank).flatten_eq]
    have hfst : ((t.map rank).sorted mark).map (fun r => (ofLex r).1) =
        ((s.map rank).sorted mark).map fun r => (ofLex r).1 :=
      (hperm.map _).eq_of_pairwise' (List.pairwise_map.2 (sorted_scores t))
        (List.pairwise_map.2 (sorted_scores s))
    have hsnd : ((t.map rank).sorted mark).map (fun r => (ofLex r).2) =
        ((s.map rank).sorted mark).map fun r => (ofLex r).2 := by
      have hinj : Function.Injective fun u : Text => u ++ key := fun _ _ => List.append_cancel_right
      refine List.map_injective_iff.2 hinj ?_
      rw [List.map_map, List.map_map]
      exact htitles
    exact (List.zip_of_prod hfst hsnd).trans (List.zip_of_prod rfl rfl).symm
  · intro e
    rw [answer, answer, e]

theorem sortable_leaf {room : Nat} {xs : List (Movie S)} (hs : Sortable room xs) {n : Nat} :
    ∀ ls ∈ Cut.finer (Thread.cut xs) (Process.cut n xs), ∀ us ∈ ls, ∀ a ∈ us, a.Comparable := by
  intro ls hls us hus a ha
  refine hs.comparable a ?_
  rw [← Thread.cut_flatten xs]
  exact (cuts_fit n xs).mem_finer hls hus ha

theorem cutsAgree_iff {room : Nat} {xs : List (Movie S)} (hs : Sortable room xs) :
    answer (Thread.cut xs) = answer (Process.cut MAX_LEVEL xs) ↔ CutsAgree xs := by
  have hfits := cuts_fit MAX_LEVEL xs
  have hc := sortable_leaf hs (n := MAX_LEVEL)
  rw [answer_eq_iff hfits, Cut.sorted_eq_iff mark_injective mark_narrow (hfits.map rank),
    Cut.finer_map, List.forall_mem_map]
  refine forall₂_congr fun ls hls => ?_
  rw [List.pairwise_map]
  exact List.Pairwise.iff_of_mem fun {us vs} hus hvs =>
    compatible_rank (hc ls hls us hus) (hc ls hls vs hvs)

/-- Under every interleaving of the threads and of the processes. -/
theorem builds_agree_iff {d' : Nat} (m m' : Memory S) (hmax : movies.length ≤ MAX_MOVIES)
    (hs : Sortable (key.length + 1) (matching cross req movies)) :
    ∃ A B : List Text,
      ForkJoin.Correct (Thread.dealRequest cross movies req d .done) m (fun f => f (.out d) = A) ∧
      ForkJoin.Correct (Process.dealRequest cross movies req d' .done) m' (fun f => f (.out d') = B) ∧
      (A = B ↔ CutsAgree (matching cross req movies)) :=
  ⟨_, _, thread_writes cross req movies m (hs.mono (by omega)),
    process_writes cross req movies m' hmax hs, cutsAgree_iff hs⟩

theorem builds_agree_iff_two :
    ∃ A B : List Text,
      ForkJoin.Correct (Thread.dealRequest (· * ·) twoMovies everything 0 .done) blank
        (fun f => f (.out 0) = A) ∧
      ForkJoin.Correct (Process.dealRequest (· * ·) twoMovies everything 0 .done) blank
        (fun f => f (.out 0) = B) ∧
      (A = B ↔ CutsAgree (matching (· * ·) everything twoMovies)) :=
  builds_agree_iff (· * ·) everything twoMovies blank blank (by decide) twoMovies_proper.sortable

/-- Two movies of one score, whose titles the secret turns around. -/
def twins : List (MovieProfile Int) := [⟨['a'], 1⟩, ⟨['a', '\x01'], 1⟩]

theorem twins_matching :
    matching (· * ·) everything twins = [⟨['a'], (1 : Int)⟩, ⟨['a', '\x01'], 1⟩] := by decide

theorem twins_sortable : Sortable (key.length + 1) (matching (· * ·) everything twins) := by
  rw [twins_matching]
  refine ⟨fun x hx => ?_, fun x hx => ?_⟩
  · simp only [List.mem_cons, List.not_mem_nil, or_false] at hx
    rcases hx with rfl | rfl <;> exact ⟨1, by decide, rfl⟩
  · simp only [List.mem_cons, List.not_mem_nil, or_false] at hx
    rcases hx with rfl | rfl <;> decide

theorem sorted_single (x : Movie S) (n : Nat) :
    ((Process.cut n [x]).map rank).sorted mark = [rank x] := by
  have hperm := Cut.sorted_perm (f := mark) ((Process.cut n [x]).map rank)
  rw [Cut.flatten_map, Process.cut_flatten, List.map_singleton] at hperm
  exact List.perm_singleton.1 hperm

theorem builds_disagree :
    Sortable (key.length + 1) (matching (· * ·) everything twins) ∧
      ForkJoin.Correct (Thread.dealRequest (· * ·) twins everything 0 .done) blank
        (fun f => f (.out 0) = [['a'] ++ key, ['a', '\x01'] ++ key]) ∧
      ForkJoin.Correct (Process.dealRequest (· * ·) twins everything 0 .done) blank
        (fun f => f (.out 0) = [['a', '\x01'] ++ key, ['a'] ++ key]) := by
  refine ⟨twins_sortable, ?_, ?_⟩
  · have h := thread_writes (d := 0) (· * ·) everything twins blank (twins_sortable.mono (by decide))
    rw [twins_matching, Thread.cut, dif_pos (by decide)] at h
    exact h
  · have h := process_writes (d := 0) (· * ·) everything twins blank (by decide) twins_sortable
    have hcut : Process.cut MAX_LEVEL (matching (· * ·) everything twins) =
        .node (Process.cut 3 [⟨['a'], (1 : Int)⟩]) (Process.cut 3 [⟨['a', '\x01'], 1⟩]) := by
      rw [twins_matching]
      rfl
    rw [hcut, answer, Cut.map, Cut.sorted, sorted_single, sorted_single,
      List.cons_merge_cons_neg _ _ _ (by decide), List.merge_right] at h
    exact h

end SysProg.Movies
