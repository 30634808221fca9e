import MelodiaStore.Pruning

/-!
# Progress of Pruning

Once the snapshot of every multiple of the interval up to `m` is taken, pruning should go on up to
the height before the next multiple. `HandleSnapshotHeight` looks for neighbours in its list that
differ by the interval, and a height that is handled again can break the run it looks for.

## Main results

* `unblocked_iff`: when every multiple up to `m` was handled, the list begins with `m`, and pruning
  goes on behind it, exactly if no height below `m` was handled while it was in the list, nor
  while its successor was not in the list and was not handled later.
* `unblocked_fails`: a height is handled twice, and pruning stays behind it.
-/

namespace MelodiaStore

namespace PruningManager

variable {δ : Type} {opts : PruningOptions} {s : UInt64} {heights : List ℤ} {height h m : ℤ}

/-! ### The property -/

/-- The manager after some heights were handled. -/
def afterHeights (opts : PruningOptions) (s : UInt64) (heights : List ℤ) : PruningManager MemDB :=
  afterCalls opts s (heights.map .handleSnapshotHeight)

/-- The heights are the positive multiples of the interval up to `m`, each at least once. -/
structure Complete (s : UInt64) (m : ℤ) (heights : List ℤ) : Prop where
  range : 0 ≤ m ∧ m < 2 ^ 63
  dvd : (s.toNat : ℤ) ∣ m
  only : ∀ h ∈ heights, 0 < h ∧ (s.toNat : ℤ) ∣ h ∧ h ≤ m
  all : ∀ h, 0 < h → (s.toNat : ℤ) ∣ h → h ≤ m → h ∈ heights

/-- A height at which pruning happens. -/
def Due (opts : PruningOptions) (h : ℤ) : Prop :=
  (opts.interval.toNat : ℤ) ∣ h ∧ (opts.keepRecent.toNat : ℤ) < h ∧ h < 2 ^ 63

/-- The list begins with `m`, and pruning goes up to the height before the next multiple, unless a
recent one has to be kept. -/
def Unblocked (opts : PruningOptions) (s : UInt64) (m : ℤ) (heights : List ℤ) : Prop :=
  (afterHeights opts s heights).pruneSnapshotHeights.head? = some m ∧
    ∀ h, Due opts h → (afterHeights opts s heights).getPruningHeight h =
      min (m + s.toNat - 1) (h - 1 - opts.keepRecent.toNat)

/-- A height below `m` is not handled while it is in the list, nor while its successor is neither
in the list nor handled later. -/
def Retires (opts : PruningOptions) (s : UInt64) (m : ℤ) (heights : List ℤ) : Prop :=
  ∀ pre h post, heights = pre ++ h :: post → h < m →
    h ∉ (afterHeights opts s pre).pruneSnapshotHeights ∧
      (h + s.toNat ∈ (afterHeights opts s pre).pruneSnapshotHeights ∨ h + s.toNat ∈ post)

/-! ### The list after some heights -/

/-- The list after some heights. -/
def pending (s : UInt64) (heights : List ℤ) : List ℤ := heights.foldl (addHeight s) [0]

theorem pending_append (s : UInt64) (pre post : List ℤ) :
    pending s (pre ++ post) = post.foldl (addHeight s) (pending s pre) :=
  List.foldl_append

theorem pairwise_pending (s : UInt64) (heights : List ℤ) :
    (pending s heights).Pairwise (· ≤ ·) := by
  induction heights using List.reverseRecOn with
  | nil => exact List.pairwise_singleton _ _
  | append_singleton heights h ih =>
    rw [pending_append]
    exact pairwise_addHeight s _ h

/-- Positive heights are added one after the other. -/
theorem outcomes_handleSnapshotHeight [Database δ] (hpos : ∀ h ∈ heights, 0 < h)
    (manager : PruningManager δ)
    (hstrategy : manager.opts.strategy ≠ .nothing) :
    ∃ db : δ, (outcomes (performPruning opts s) (heights.map .handleSnapshotHeight) manager).2 =
      { manager with
        db
        pruneSnapshotHeights :=
          heights.foldl (addHeight manager.snapshotInterval) manager.pruneSnapshotHeights } := by
  induction heights generalizing manager with
  | nil => exact ⟨manager.db, rfl⟩
  | cons h heights ih =>
    obtain ⟨db, -, hrun⟩ := exists_run_handleSnapshotHeight manager hstrategy
      (hpos h List.mem_cons_self)
    obtain ⟨db', hrest⟩ := ih (fun x hx => hpos x (List.mem_cons_of_mem h hx))
      { manager with
        db
        pruneSnapshotHeights :=
          addHeight manager.snapshotInterval manager.pruneSnapshotHeights h } hstrategy
    refine ⟨db', ?_⟩
    rw [List.map_cons, outcomes, outcome_handleSnapshotHeight hrun]
    exact hrest

/-- The manager after positive heights. -/
theorem afterHeights_eq (hpos : ∀ h ∈ heights, 0 < h) (hstrategy : opts.strategy ≠ .nothing) :
    ∃ db : MemDB, afterHeights opts s heights =
      { startedOn db opts s with pruneSnapshotHeights := pending s heights } :=
  outcomes_handleSnapshotHeight hpos (startedOn MemDB.new opts s) hstrategy

/-- The heights that are pending. -/
theorem pruneSnapshotHeights_afterHeights (hpos : ∀ h ∈ heights, 0 < h)
    (hstrategy : opts.strategy ≠ .nothing) :
    (afterHeights opts s heights).pruneSnapshotHeights = pending s heights := by
  obtain ⟨db, hdb⟩ := afterHeights_eq (s := s) hpos hstrategy
  rw [hdb]

/-- When nothing is to be pruned, no height is added. -/
theorem afterHeights_of_nothing (hstrategy : opts.strategy = .nothing) :
    afterHeights opts s heights = startedOn MemDB.new opts s := by
  rw [afterHeights, afterCalls]
  induction heights with
  | nil => rfl
  | cons h heights ih =>
    rw [List.map_cons, outcomes, outcome_handleSnapshotHeight
      (run_handleSnapshotHeight_of_ignored (startedOn MemDB.new opts s) (.inl hstrategy))]
    exact ih

/-! ### A height that stays in the way -/

variable {post l : List ℤ}

/-- Two multiples of the interval differ by at least the interval. -/
theorem add_interval_le (hh : (s.toNat : ℤ) ∣ h) (hm : (s.toNat : ℤ) ∣ m) (hlt : h < m) :
    h + s.toNat ≤ m := by
  have := Int.le_of_dvd (by omega) (Int.dvd_sub hm hh)
  omega

theorem count_sorted (heights : List ℤ) (height h : ℤ) :
    ((heights ++ [height]).insertionSort (· ≤ ·)).count h =
      heights.count h + if height = h then 1 else 0 := by
  rw [(List.perm_insertionSort (· ≤ ·) _).count_eq, List.count_append, List.count_singleton]
  simp only [beq_iff_eq]

theorem two_le_count_addHeight (hnext : nextHeight s h ≠ h)
    (hcount : 2 ≤ heights.count h + if height = h then 1 else 0) :
    2 ≤ (addHeight s heights height).count h := by
  refine two_le_count_dropRun (List.pairwise_insertionSort (· ≤ ·) _) hnext ?_
  rwa [count_sorted]

/-- **The step lemma** for a height that occurs twice. -/
theorem two_le_count_foldl (hnext : nextHeight s h ≠ h) (hcount : 2 ≤ heights.count h) :
    2 ≤ (post.foldl (addHeight s) heights).count h := by
  induction post generalizing heights with
  | nil => exact hcount
  | cons x post ih => exact ih (two_le_count_addHeight hnext (by omega))

/-- A height whose successor is not there stays. -/
theorem mem_addHeight_of_gap (hnext : nextHeight s h = h + s.toNat)
    (hmem : h ∈ heights ∨ h = height) (hgap : h + s.toNat ∉ heights) (hne : h + s.toNat ≠ height) :
    h ∈ addHeight s heights height ∧ h + s.toNat ∉ addHeight s heights height := by
  constructor
  · refine mem_dropRun (mem_sorted_iff.mpr hmem) ?_
    rw [hnext, mem_sorted_iff]
    rintro (h' | h')
    · exact hgap h'
    · exact hne h'
  · intro hin
    rcases mem_of_mem_addHeight hin with h' | h'
    · exact hgap h'
    · exact hne h'

/-- A height before a gap stays. -/
theorem mem_foldl_of_gap (hnext : nextHeight s h = h + s.toNat) (hmem : h ∈ heights)
    (hgap : h + s.toNat ∉ heights) (hpost : h + s.toNat ∉ post) :
    h ∈ post.foldl (addHeight s) heights := by
  induction post generalizing heights with
  | nil => exact hmem
  | cons x post ih =>
    rw [List.mem_cons, not_or] at hpost
    obtain ⟨hmem', hgap'⟩ := mem_addHeight_of_gap hnext (.inl hmem) hgap hpost.1
    exact ih hmem' hgap' hpost.2

/-- A list that begins with `m` has no height below it. -/
theorem not_mem_of_head? (hsorted : l.Pairwise (· ≤ ·)) (hhead : l.head? = some m) (hlt : h < m) :
    h ∉ l := by
  intro hmem
  cases l with
  | nil => cases hhead
  | cons a l =>
    obtain rfl : a = m := Option.some.inj hhead
    rcases List.mem_cons.mp hmem with rfl | hmem
    · exact lt_irrefl _ hlt
    · exact absurd (List.rel_of_pairwise_cons hsorted hmem) (not_le.mpr hlt)

/-- When the list begins with `m` in the end, no height below `m` came in the way. -/
theorem retires_of_head? (hcomplete : Complete s m heights) (hs : 0 < s.toNat)
    (hhead : (pending s heights).head? = some m) {pre : List ℤ}
    (hheights : heights = pre ++ h :: post) (hlt : h < m) :
    h ∉ pending s pre ∧ (h + s.toNat ∈ pending s pre ∨ h + s.toNat ∈ post) := by
  obtain ⟨hpos, hdvd, -⟩ := hcomplete.only h (by rw [hheights]; simp)
  have hle := add_interval_le hdvd hcomplete.dvd hlt
  have hrange := hcomplete.range
  have hnext : nextHeight s h = h + s.toNat := nextHeight_of_range hpos.le (by omega)
  have hgone : h ∉ pending s heights :=
    not_mem_of_head? (pairwise_pending s heights) hhead hlt
  rw [hheights, pending_append, List.foldl_cons] at hgone
  constructor
  · intro hmem
    have hcount : 2 ≤ (addHeight s (pending s pre) h).count h := by
      refine two_le_count_addHeight (by omega) ?_
      rw [if_pos rfl]
      have := List.one_le_count_iff.mpr hmem
      omega
    have htwice : 2 ≤ (post.foldl (addHeight s) (addHeight s (pending s pre) h)).count h :=
      two_le_count_foldl (by omega) hcount
    exact hgone (List.one_le_count_iff.mp (by omega))
  · by_contra hnot
    rw [not_or] at hnot
    obtain ⟨hmem, hgap⟩ := mem_addHeight_of_gap hnext (.inr rfl) hnot.1 (by omega)
    exact hgone (mem_foldl_of_gap hnext hmem hgap hnot.2)

/-! ### A list that clears -/

/-- What holds of the list before the heights `post` are handled: a height below `m` occurs once,
and is or will be followed by its successor. -/
structure Clearing (s : UInt64) (m : ℤ) (post l : List ℤ) : Prop where
  ne_nil : l ≠ []
  sorted : l.Pairwise (· ≤ ·)
  settled : ∀ a b l', l = a :: b :: l' → b ≠ nextHeight s a
  range : ∀ h ∈ l, 0 ≤ h ∧ (s.toNat : ℤ) ∣ h ∧ h ≤ m
  once : ∀ h, h < m → l.count h ≤ 1
  followed : ∀ h ∈ l, h < m → h + s.toNat ∈ l ∨ h + s.toNat ∈ post

/-- In a sorted list what comes after an element that is left is left as well. -/
theorem mem_addHeight_of_lt (hmem : h ∈ addHeight s heights height) {x : ℤ}
    (hx : x ∈ heights ∨ x = height) (hlt : h < x) : x ∈ addHeight s heights height := by
  obtain ⟨dropped, hsplit⟩ := dropRun_suffix (nextHeight s)
    ((heights ++ [height]).insertionSort (· ≤ ·))
  have hsorted := List.pairwise_insertionSort (· ≤ ·) (heights ++ [height])
  have hin := mem_sorted_iff.mpr hx
  rw [← hsplit] at hsorted hin
  rcases List.mem_append.mp hin with hdropped | hleft
  · exact absurd ((List.pairwise_append.mp hsorted).2.2 x hdropped h hmem) (not_le.mpr hlt)
  · exact hleft

/-- **The step lemma**: a height that comes at a good moment keeps the list clearing. -/
theorem Clearing.addHeight (hclear : Clearing s m (height :: post) l) (hs : 0 < s.toNat)
    (hheight : 0 < height ∧ (s.toNat : ℤ) ∣ height ∧ height ≤ m)
    (hgood : height < m → height ∉ l ∧ (height + s.toNat ∈ l ∨ height + s.toNat ∈ post)) :
    Clearing s m post (addHeight s l height) where
  ne_nil := addHeight_ne_nil s l height
  sorted := pairwise_addHeight s l height
  settled a b l' h := ne_of_dropRun_eq h
  range h hh := by
    rcases mem_of_mem_addHeight hh with hh | rfl
    · exact hclear.range h hh
    · exact ⟨hheight.1.le, hheight.2⟩
  once h hlt := by
    refine ((dropRun_suffix _ _).sublist.count_le h).trans ?_
    rw [count_sorted]
    split_ifs with heq
    · subst heq
      rw [List.count_eq_zero_of_not_mem (hgood hlt).1]
    · exact hclear.once h hlt
  followed h hh hlt := by
    have hlater : ∀ x, h + s.toNat = x → x ∈ l ∨ x = height →
        x ∈ PruningManager.addHeight s l height := by
      rintro x rfl hx
      exact mem_addHeight_of_lt hh hx (by omega)
    rcases mem_of_mem_addHeight hh with hmem | rfl
    · rcases hclear.followed h hmem hlt with hnext | hnext
      · exact .inl (hlater _ rfl (.inl hnext))
      · rcases List.mem_cons.mp hnext with hnext | hnext
        · exact .inl (hlater _ rfl (.inr hnext))
        · exact .inr hnext
    · rcases (hgood hlt).2 with hnext | hnext
      · exact .inl (hlater _ rfl (.inl hnext))
      · exact .inr hnext

/-- A clearing list with no height to come begins with `m`. -/
theorem Clearing.head? (hclear : Clearing s m [] l) (hs : 0 < s.toNat) (hm : m < 2 ^ 63)
    (hdvd : (s.toNat : ℤ) ∣ m) : l.head? = some m := by
  obtain ⟨a, l, rfl⟩ := List.exists_cons_of_ne_nil hclear.ne_nil
  obtain ⟨hpos, hdvda, hle⟩ := hclear.range a List.mem_cons_self
  rcases hle.lt_or_eq with hlt | rfl
  · have hstep := add_interval_le hdvda hdvd hlt
    rcases hclear.followed a List.mem_cons_self hlt with hnext | hnext
    · -- the successor of the first element would be the second one
      have hmem : a + s.toNat ∈ l := by
        rcases List.mem_cons.mp hnext with h | h
        · omega
        · exact h
      cases l with
      | nil => cases hmem
      | cons b l =>
        have hab : a ≤ b := List.rel_of_pairwise_cons hclear.sorted List.mem_cons_self
        have hne : a ≠ b := by
          rintro rfl
          have := hclear.once a hlt
          simp at this
        have hdvdb := (hclear.range b (by simp)).2.1
        have hge := add_interval_le hdvda hdvdb (by omega)
        have hbnext : b ≤ a + s.toNat := by
          rcases List.mem_cons.mp hmem with h | h
          · exact h.ge
          · exact List.rel_of_pairwise_cons hclear.sorted.of_cons h
        refine absurd ?_ (hclear.settled a b l rfl)
        rw [nextHeight_of_range hpos (by omega)]
        omega
    · cases hnext
  · rfl

/-- **The run lemma**: heights that all come at a good moment leave a clearing list. -/
theorem clearing_pending (hcomplete : Complete s m heights) (hs : 0 < s.toNat)
    (hgood : ∀ pre h post, heights = pre ++ h :: post → h < m →
      h ∉ pending s pre ∧ (h + s.toNat ∈ pending s pre ∨ h + s.toNat ∈ post)) :
    Clearing s m [] (pending s heights) := by
  suffices ∀ post pre, heights = pre ++ post → Clearing s m post (pending s pre) →
      Clearing s m [] (pending s heights) by
    refine this heights [] rfl ⟨List.cons_ne_nil _ _, List.pairwise_singleton _ _, ?_, ?_, ?_, ?_⟩
    · rintro a b l' h
      cases h
    · intro h hh
      rw [List.mem_singleton.mp hh]
      exact ⟨le_rfl, dvd_zero _, hcomplete.range.1⟩
    · intro h _
      exact List.count_le_length
    · intro h hh hlt
      rw [List.mem_singleton.mp hh] at hlt ⊢
      have hle := add_interval_le (dvd_zero _) hcomplete.dvd hlt
      exact .inr (hcomplete.all _ (by omega) (by rw [zero_add]) hle)
  intro post
  induction post with
  | nil =>
    intro pre hpre hclear
    rwa [hpre, List.append_nil]
  | cons h post ih =>
    intro pre hpre hclear
    refine ih (pre ++ [h]) (by rw [hpre, List.append_assoc]; rfl) ?_
    rw [pending_append]
    exact hclear.addHeight hs (hcomplete.only h (by rw [hpre]; simp)) (hgood pre h post hpre)

/-! ### The height to prune to -/

/-- What `GetPruningHeight` returns where pruning happens. -/
theorem getPruningHeight_of_due {manager : PruningManager δ} {first : ℤ}
    (hheights : manager.pruneSnapshotHeights = first :: l)
    (hstrategy : manager.opts.strategy ≠ .nothing) (hs : 0 < manager.snapshotInterval.toNat)
    (hdue : Due manager.opts h) : manager.getPruningHeight h =
      min (int64 (first + manager.snapshotInterval.toNat - 1))
        (h - 1 - manager.opts.keepRecent.toNat) := by
  obtain ⟨hdvd, hkeep, hlt⟩ := hdue
  have hpos : 0 < h := by omega
  have hinterval : manager.opts.interval.toNat ≠ 0 := by
    intro h0
    rw [h0, Nat.cast_zero, zero_dvd_iff] at hdvd
    omega
  have hle := Int.le_of_dvd hpos hdvd
  have hword : int64 manager.opts.interval.toNat = manager.opts.interval.toNat :=
    int64_of_range (by omega) (by omega)
  have hrecent : int64 manager.opts.keepRecent.toNat = manager.opts.keepRecent.toNat :=
    int64_of_range (by omega) (by omega)
  rw [getPruningHeight_eq hstrategy (fun h0 => hinterval (congrArg UInt64.toNat h0))
    (by rw [hword, Int.tmod_eq_zero_of_dvd hdvd]) (hrecent.trans_lt hkeep) hheights,
    if_neg fun h0 => hs.ne' (congrArg UInt64.toNat h0),
    int64_of_range (n := h - 1 - _) (by omega) (by omega)]

/-- The height before the next multiple is computed right as long as it fits. -/
theorem min_int64_eq_iff (hm : 0 ≤ m ∧ m < 2 ^ 63) (hdvd : (s.toNat : ℤ) ∣ m) {bound : ℤ}
    (hs : 0 < s.toNat) (hbound : 0 ≤ bound) :
    min (int64 (m + s.toNat - 1)) bound = min (m + s.toNat - 1) bound ↔ m + s.toNat ≤ 2 ^ 63 := by
  constructor
  · intro heq
    by_contra hover
    have hsmall : m + s.toNat - 1 < 2 ^ 64 := by
      have := s.toNat_lt
      rcases hm.1.lt_or_eq with hpos | h0
      · have := Int.le_of_dvd hpos hdvd
        omega
      · omega
    have hneg : int64 (m + s.toNat - 1) < 0 := by
      rw [int64, Int.bmod_def]
      omega
    rw [min_eq_left (by omega)] at heq
    have : 0 ≤ min (m + s.toNat - 1) bound := le_min (by omega) hbound
    omega
  · intro hfits
    rw [int64_of_range (by omega) (by omega)]

/-! ### The characterisation -/

/-- The list begins with `m` exactly if no height below `m` came in the way. -/
theorem head?_afterHeights_iff (hstrategy : opts.strategy ≠ .nothing) (hs : 0 < s.toNat)
    (hcomplete : Complete s m heights) :
    (afterHeights opts s heights).pruneSnapshotHeights.head? = some m ↔
      Retires opts s m heights := by
  have hpos : ∀ h ∈ heights, 0 < h := fun h hh => (hcomplete.only h hh).1
  have hpre : ∀ pre h post, heights = pre ++ h :: post →
      (afterHeights opts s pre).pruneSnapshotHeights = pending s pre := by
    intro pre h post hheights
    refine pruneSnapshotHeights_afterHeights (fun x hx => hpos x ?_) hstrategy
    rw [hheights]
    exact List.mem_append_left _ hx
  rw [pruneSnapshotHeights_afterHeights hpos hstrategy]
  constructor
  · intro hhead pre h post hheights hlt
    rw [hpre pre h post hheights]
    exact retires_of_head? hcomplete hs hhead hheights hlt
  · intro hretires
    refine (clearing_pending hcomplete hs ?_).head? hs hcomplete.range.2 hcomplete.dvd
    intro pre h post hheights hlt
    rw [← hpre pre h post hheights]
    exact hretires pre h post hheights hlt

/-- The condition under which pruning goes on. When nothing is to be pruned, heights are not
handled and the height to prune to is `0`. -/
def Progresses (opts : PruningOptions) (s : UInt64) (m : ℤ) (heights : List ℤ) : Prop :=
  if opts.strategy = .nothing then
    m = 0 ∧ ∀ h, Due opts h → s.toNat = 1 ∨ h = opts.keepRecent.toNat + 1
  else Retires opts s m heights ∧ ∀ h, Due opts h → m + s.toNat ≤ 2 ^ 63

/-- Without pruning. -/
theorem unblocked_iff_of_nothing (hstrategy : opts.strategy = .nothing) (hs : 0 < s.toNat) :
    Unblocked opts s m heights ↔
      m = 0 ∧ ∀ h, Due opts h → s.toNat = 1 ∨ h = opts.keepRecent.toNat + 1 := by
  have hzero : ∀ h, (startedOn MemDB.new opts s).getPruningHeight h = 0 := fun h => if_pos hstrategy
  rw [Unblocked, afterHeights_of_nothing hstrategy]
  simp only [hzero]
  constructor
  · rintro ⟨hhead, hprune⟩
    obtain rfl : 0 = m := Option.some.inj hhead
    refine ⟨rfl, fun h hdue => ?_⟩
    have := hprune h hdue
    have := hdue.2.1
    omega
  · rintro ⟨rfl, hall⟩
    refine ⟨rfl, fun h hdue => ?_⟩
    have := hall h hdue
    have := hdue.2.1
    omega

/-- **Pruning is not blocked once the snapshots are done**, exactly if the heights came at good
moments and the height before the next multiple fits into an `int64`. -/
theorem unblocked_iff (opts : PruningOptions) (hs : 0 < s.toNat)
    (hcomplete : Complete s m heights) :
    Unblocked opts s m heights ↔ Progresses opts s m heights := by
  unfold Progresses
  split_ifs with hstrategy
  · exact unblocked_iff_of_nothing hstrategy hs
  · have hpos : ∀ h ∈ heights, 0 < h := fun h hh => (hcomplete.only h hh).1
    rw [Unblocked, head?_afterHeights_iff hstrategy hs hcomplete]
    refine and_congr_right fun hretires => forall₂_congr fun h hdue => ?_
    have hhead := (head?_afterHeights_iff hstrategy hs hcomplete).mpr hretires
    obtain ⟨db, hdb⟩ := afterHeights_eq (s := s) hpos hstrategy
    rw [hdb] at hhead ⊢
    obtain ⟨l, hl⟩ := List.head?_eq_some_iff.mp hhead
    rw [getPruningHeight_of_due hl hstrategy hs hdue]
    have hkeep := hdue.2.1
    exact min_int64_eq_iff hcomplete.range hcomplete.dvd hs
      (show 0 ≤ h - 1 - opts.keepRecent.toNat by omega)

/-- Two snapshots that are done in the wrong order. -/
theorem unblocked_iff_of_two :
    Complete 10 20 [20, 10] ∧
      (Unblocked (.newPruningOptions .everything) 10 20 [20, 10] ↔
        Progresses (.newPruningOptions .everything) 10 20 [20, 10]) := by
  have hcomplete : Complete 10 20 [20, 10] := by
    refine ⟨by decide, by decide, by decide, ?_⟩
    intro h hpos hdvd hle
    have h10 : (10 : ℤ) ∣ h := hdvd
    have : h = 10 ∨ h = 20 := by omega
    simpa [or_comm] using this
  exact ⟨hcomplete, unblocked_iff _ (by decide) hcomplete⟩

/-- **A snapshot height that is retried blocks pruning**: `10` is handled twice, then `20`. -/
theorem unblocked_fails : Complete 10 20 [10, 10, 20] ∧
    ¬Unblocked (.newPruningOptions .everything) 10 20 [10, 10, 20] := by
  constructor
  · refine ⟨by decide, by decide, by decide, ?_⟩
    intro h hpos hdvd hle
    have h10 : (10 : ℤ) ∣ h := hdvd
    have : h = 10 ∨ h = 20 := by omega
    simpa using this
  · rintro ⟨hhead, -⟩
    revert hhead
    decide

end PruningManager

end MelodiaStore
