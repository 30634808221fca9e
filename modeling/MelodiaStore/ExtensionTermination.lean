import MelodiaStore.Extensions

/-!
# Restoring Extensions Comes to an End

The loop of `doRestoreSnapshot` in `snapshots/manager.go` goes on in the stream only where an
extension reads: `nextItem` changes in `payloadReader` and nowhere else. An extension that returns
`nil` without a read leaves its own metadata item in `nextItem`, and is called for it again.

Every extension is taken to return after finitely many reads, whatever they answer. A bound on the
rounds and on the reads of a call that is large enough then gives the result, if there is one.

## Main results

* `calledOnce_iff`: the two together.
* `idle_extension_hangs`: an extension without payloads that never reads.
-/

namespace MelodiaStore

/-- `RestoreExtension` returns after finitely many reads, whatever they answer. -/
def ExtensionSnapshotter.Finishes (extension : ExtensionSnapshotter) : Prop :=
  ∀ n height format (answers : ℕ → PayloadAnswer),
    ∃ k, extension.restoreExtension n height format ((List.range k).map answers) ≠ none

section Run

variable {items : List SnapshotItem} {ending : ReadError}
  {next : List PayloadAnswer → Option (Option String)} {answers answers' : List PayloadAnswer}
  {st st' : RestoreState} {bound bound' : ℕ} {result : Option String}
  {out : Option String × List PayloadAnswer × RestoreState}

/-! ### A call returns -/

/-- The bound on the reads does not change what a call returns. -/
theorem runExtension_mono (h : runExtension items ending next bound answers st = some out)
    (hle : bound ≤ bound') : runExtension items ending next bound' answers st = some out := by
  induction bound generalizing bound' answers st with
  | zero =>
    cases hnext : next answers with
    | none =>
      rw [runExtension, hnext] at h
      cases h
    | some result =>
      rw [runExtension_of_some hnext] at h
      rw [runExtension_of_some hnext, h]
  | succ bound ih =>
    obtain ⟨b, rfl⟩ : ∃ b, bound' = b + 1 := ⟨bound' - 1, by omega⟩
    cases hnext : next answers with
    | none =>
      rw [runExtension_of_none hnext] at h
      rw [runExtension_of_none hnext]
      exact ih h (by omega)
    | some result =>
      rw [runExtension_of_some hnext] at h
      rw [runExtension_of_some hnext, h]

/-- The bound does not show in the result. -/
theorem runExtension_unique {out' : Option String × List PayloadAnswer × RestoreState}
    (h : runExtension items ending next bound answers st = some out)
    (h' : runExtension items ending next bound' answers st = some out') : out = out' := by
  have hmax := runExtension_mono h (le_max_left bound bound')
  have hmax' := runExtension_mono h' (le_max_right bound bound')
  exact Option.some.inj (hmax.symm.trans hmax')

/-- The state after some reads. -/
def readState (items : List SnapshotItem) (ending : ReadError) (st : RestoreState) :
    ℕ → RestoreState
  | 0 => st
  | k + 1 => (payloadReader items ending (readState items ending st k)).2

/-- What the reads answer, one after the other. -/
def readAnswer (items : List SnapshotItem) (ending : ReadError) (st : RestoreState) (k : ℕ) :
    PayloadAnswer :=
  (payloadReader items ending (readState items ending st k)).1

/-- A call that returns after `j + d` reads returns, when `j` of them were made. -/
theorem exists_runExtension_from (st : RestoreState) {d j : ℕ}
    (h : next ((List.range (j + d)).map (readAnswer items ending st)) ≠ none) :
    ∃ out, runExtension items ending next d ((List.range j).map (readAnswer items ending st))
      (readState items ending st j) = some out := by
  induction d generalizing j with
  | zero =>
    obtain ⟨result, hnext⟩ := Option.ne_none_iff_exists'.mp h
    exact ⟨_, runExtension_of_some hnext 0 _⟩
  | succ d ih =>
    cases hnext : next ((List.range j).map (readAnswer items ending st)) with
    | some result => exact ⟨_, runExtension_of_some hnext _ _⟩
    | none =>
      have hstep : (List.range (j + 1)).map (readAnswer items ending st) =
          (List.range j).map (readAnswer items ending st) ++
            [readAnswer items ending st j] := by
        rw [List.range_succ, List.map_append, List.map_singleton]
      have hsum : j + (d + 1) = j + 1 + d := by omega
      obtain ⟨out, hout⟩ := ih (hsum ▸ h)
      refine ⟨out, ?_⟩
      rw [runExtension_of_none hnext]
      rw [hstep] at hout
      exact hout

/-- **A call of an extension that finishes returns**, with a bound that is large enough. -/
theorem exists_runExtension {extension : ExtensionSnapshotter} (h : extension.Finishes) (n : ℕ)
    (height : UInt64) (format : UInt32) (st : RestoreState) :
    ∃ bound out, runExtension items ending (extension.restoreExtension n height format) bound []
      st = some out := by
  obtain ⟨k, hk⟩ := h n height format (readAnswer items ending st)
  have hk' : extension.restoreExtension n height format
      ((List.range (0 + k)).map (readAnswer items ending st)) ≠ none := by
    rwa [Nat.zero_add]
  exact ⟨k, exists_runExtension_from st hk'⟩

/-! ### A call that reads comes further -/

/-- The stream was read beyond a place, or to its end. -/
def Ahead (items : List SnapshotItem) (p : ℕ) (st : RestoreState) : Prop :=
  p < st.pos ∨ items.length ≤ st.pos ∧ st.nextItem = .empty

/-- A read moves ahead. -/
theorem ahead_payloadReader (items : List SnapshotItem) (ending : ReadError) (st : RestoreState) :
    Ahead items st.pos (payloadReader items ending st).2 := by
  cases hitem : items[st.pos]? with
  | none =>
    rw [snd_payloadReader_of_none hitem]
    exact .inr ⟨List.getElem?_eq_none_iff.mp hitem, rfl⟩
  | some item =>
    rw [snd_payloadReader_of_some hitem]
    exact .inl (Nat.lt_succ_self _)

theorem Ahead.payloadReader {p : ℕ} (h : Ahead items p st) :
    Ahead items p (payloadReader items ending st).2 := by
  rcases h with hlt | ⟨hend, -⟩
  · rcases ahead_payloadReader items ending st with hmore | hend
    · exact .inl (hlt.trans hmore)
    · exact .inr hend
  · rw [snd_payloadReader_of_none (List.getElem?_eq_none_iff.mpr hend)]
    exact .inr ⟨hend, rfl⟩

/-- **A call that reads** comes beyond where it began, or to the end of the stream. -/
theorem ahead_of_reads (hnext : next [] = none)
    (hrun : runExtension items ending next bound [] st = some (result, answers', st')) :
    Ahead items st.pos st' := by
  cases bound with
  | zero =>
    rw [runExtension, hnext] at hrun
    cases hrun
  | succ bound =>
    rw [runExtension_of_none hnext] at hrun
    exact runExtension_invariant (fun _ h => h.payloadReader)
      (ahead_payloadReader items ending st) hrun

end Run

/-! ### The rounds of the loop -/

/-- A call that is made in a state returns `nil` without a read. -/
def Idle (extensions : Extensions) (height : UInt64) (n : ℕ) (st : RestoreState) : Prop :=
  ∃ name format extension, CallFor extensions st name format extension ∧
    extension.restoreExtension n height format [] = some none

/-- The states in which a round of the loop begins, and the number of calls before. -/
inductive Reached (items : List SnapshotItem) (ending : ReadError) (extensions : Extensions)
    (height : UInt64) : ℕ → RestoreState → Prop
  | first : Reached items ending extensions height 0 (firstItem items)
  | next {n bound : ℕ} {st st' : RestoreState} (h : Reached items ending extensions height n st)
      (hcall : Returns items ending extensions height bound n st st')
      (hpayload : st'.nextItem.getExtensionPayload = none) :
      Reached items ending extensions height (n + 1) st'

/-! ### The loop ends -/

section Termination

variable {items : List SnapshotItem} {ending : ReadError} {extensions : Extensions}
  {height : UInt64} {bound fuel n : ℕ} {st st' : RestoreState} {r : Restored}
  {call : ExtensionCall}

theorem placed_firstItem (items : List SnapshotItem) : Placed items (firstItem items) := by
  cases items with
  | nil => exact .inr ⟨rfl, rfl⟩
  | cons item items => exact .inl ⟨Nat.one_pos, rfl⟩

/-- A round starts behind a read item. -/
theorem Reached.placed (h : Reached items ending extensions height n st) : Placed items st := by
  induction h with
  | first => exact placed_firstItem items
  | next _ hcall _ ih => exact (hcall.placed ih).1

/-- What is left of the stream, at a state with an item. -/
def remaining (items : List SnapshotItem) (st : RestoreState) : ℕ :=
  if st.nextItem = .empty then 0 else items.length - st.pos + 1

/-- A call leaves less to read. -/
theorem remaining_lt (hne : st.nextItem ≠ .empty) (hplaced : Placed items st')
    (hahead : Ahead items st.pos st') : remaining items st' < remaining items st := by
  have hle := hplaced.pos_le
  rw [remaining, remaining, if_neg hne]
  split_ifs with hempty
  · omega
  · rcases hahead with hlt | ⟨-, h⟩
    · omega
    · exact absurd h hempty

/-- The calls from a state on are for different metadata items, none of which was passed. -/
structure OnceFrom (items : List SnapshotItem) (st : RestoreState) (calls : List ExtensionCall) :
    Prop where
  nodup : (calls.map ExtensionCall.metadata).Nodup
  metadata : ∀ call ∈ calls, st.pos - 1 ≤ call.metadata ∧ IsMetadata items call.metadata
  empty : st.nextItem = .empty → calls = []

theorem onceFrom_nil (items : List SnapshotItem) (st : RestoreState) : OnceFrom items st [] :=
  ⟨List.nodup_nil, fun _ hcall => absurd hcall List.not_mem_nil, fun _ => rfl⟩

theorem onceFrom_singleton (hplaced : Placed items st) (hmeta : st.nextItem.getExtension ≠ none)
    (hat : call.metadata = st.pos - 1) : OnceFrom items st [call] := by
  refine ⟨List.nodup_singleton _, ?_, fun hempty => ?_⟩
  · rw [List.forall_mem_singleton, hat]
    exact ⟨le_rfl, (hplaced.isMetadata hmeta).2⟩
  · rw [hempty] at hmeta
    exact absurd rfl hmeta

/-- A call that reads, before calls that are for different items. -/
theorem OnceFrom.cons {calls : List ExtensionCall} (h : OnceFrom items st' calls)
    (hplaced : Placed items st) (hmeta : st.nextItem.getExtension ≠ none)
    (hahead : Ahead items st.pos st') (hat : call.metadata = st.pos - 1) :
    OnceFrom items st (call :: calls) := by
  obtain ⟨hpos, hfirst⟩ := hplaced.isMetadata hmeta
  have hlater : ∀ c ∈ calls, st.pos - 1 < c.metadata := by
    intro c hc
    rcases hahead with hlt | ⟨-, hempty⟩
    · have := (h.metadata c hc).1
      omega
    · rw [h.empty hempty] at hc
      exact absurd hc List.not_mem_nil
  refine ⟨List.nodup_cons.mpr ⟨fun hmem => ?_, h.nodup⟩, ?_, fun hempty => ?_⟩
  · obtain ⟨c, hc, hceq⟩ := List.mem_map.mp hmem
    have := hlater c hc
    omega
  · refine List.forall_mem_cons.mpr ⟨⟨hat.ge, hat ▸ hfirst⟩, fun c hc => ?_⟩
    exact ⟨(hlater c hc).le, (h.metadata c hc).2⟩
  · rw [hempty] at hmeta
    exact absurd rfl hmeta

/-- **Without idle calls the loop ends**: with bounds that are large enough it returns, and the
calls it made are for different metadata items. -/
theorem exists_restoreLoop
    (hfinish : ∀ name extension, extensions.lookup name = some extension → extension.Finishes)
    (hbusy : ∀ n st, Reached items ending extensions height n st → ¬ Idle extensions height n st)
    (hreached : Reached items ending extensions height n st) :
    ∃ fuel least r, OnceFrom items st r.calls ∧ ∀ bound, least ≤ bound →
      restoreLoop items ending extensions height bound fuel n st = some r := by
  -- the induction is on what is left of the stream
  induction hleft : remaining items st using Nat.strong_induction_on generalizing n st with
  | h left ih =>
    by_cases hcall : ∃ name format extension, CallFor extensions st name format extension
    swap
    · push Not at hcall
      obtain ⟨err, -, hlast⟩ := restoreLoop_of_no_call hcall
      exact ⟨1, 0, _, onceFrom_nil items st, fun bound _ => hlast bound 0 n⟩
    · obtain ⟨name, format, extension, hcall⟩ := hcall
      have hplaced := hreached.placed
      have hmeta : st.nextItem.getExtension ≠ none := by
        rw [hcall.item_eq]
        exact Option.some_ne_none _
      have hitem : st.nextItem ≠ .empty := by
        rw [hcall.item_eq]
        exact SnapshotItem.noConfusion
      obtain ⟨least, ⟨result, answers, st'⟩, hrun⟩ :=
        exists_runExtension (hfinish name extension hcall.lookup_eq) n height format st
      have hruns : ∀ bound, least ≤ bound → runExtension items ending
          (extension.restoreExtension n height format) bound [] st =
            some (result, answers, st') := fun bound hle => runExtension_mono hrun hle
      cases result with
      | some e =>
        exact ⟨1, least, _, onceFrom_singleton hplaced hmeta rfl, fun bound hle =>
          hcall.restoreLoop_of_error (hruns bound hle)⟩
      | none =>
        by_cases hpayload : st'.nextItem.getExtensionPayload = none
        swap
        · exact ⟨1, least, _, onceFrom_singleton hplaced hmeta rfl, fun bound hle =>
            hcall.restoreLoop_of_payload (hruns bound hle) hpayload⟩
        · have hreads : extension.restoreExtension n height format [] = none := by
            cases hnext : extension.restoreExtension n height format [] with
            | none => rfl
            | some early =>
              rw [runExtension_of_some hnext] at hrun
              obtain ⟨rfl, -⟩ := Prod.mk.inj (Option.some.inj hrun)
              exact absurd ⟨name, format, extension, hcall, hnext⟩ (hbusy n st hreached)
          have hahead := ahead_of_reads hreads hrun
          obtain ⟨hplaced', -⟩ := placed_runExtension hplaced hrun
          obtain ⟨fuel, least', r, honce, hrest⟩ :=
            ih _ (hleft ▸ remaining_lt hitem hplaced' hahead)
              (hreached.next (hcall.returns hrun) hpayload) rfl
          refine ⟨fuel + 1, max least least',
            { r with calls := ⟨st.pos - 1, name, format, answers, st'.pos⟩ :: r.calls },
            honce.cons hplaced hmeta hahead rfl, fun bound hbound => ?_⟩
          rw [hcall.restoreLoop_of_rest (hruns bound (le_of_max_le_left hbound)) hpayload,
            hrest bound (le_of_max_le_right hbound)]
          rfl

/-! ### An idle call is repeated -/

/-- A state in which a round begins is one that the loop comes to. -/
theorem Reached.exists_restoreLoop (hreached : Reached items ending extensions height n st)
    (h : restoreLoop items ending extensions height bound fuel 0 (firstItem items) = some r) :
    ∃ fuel' r', restoreLoop items ending extensions height bound fuel' n st = some r' ∧
      r'.calls <:+ r.calls := by
  induction hreached with
  | first => exact ⟨fuel, r, h, List.suffix_refl _⟩
  | next _ hcall hpayload ih =>
    obtain ⟨fuel₁, r₁, hr₁, hsuffix⟩ := ih
    obtain ⟨name, format, extension, answers, hitem, hlookup, hformat, hrun⟩ := hcall
    have hcallfor : CallFor extensions _ name format extension := ⟨hitem, hlookup, hformat⟩
    obtain ⟨result, answers', st₁, r₂, hrun₁, rfl, hr₂⟩ := hcallfor.exists_of_restoreLoop hr₁
    -- the loop's bound and the one in `Reached` give the same call
    obtain ⟨rfl, -, rfl⟩ : result = none ∧ answers' = answers ∧ st₁ = _ := by
      simpa using runExtension_unique hrun₁ hrun
    rw [if_pos ⟨rfl, hpayload⟩] at hr₂
    exact ⟨_, r₂, hr₂, (List.suffix_cons _ _).trans hsuffix⟩

/-- **An idle call is repeated**: where the loop ends and its calls are for different items, no
call that it comes to is idle. -/
theorem not_idle_of_calledOnce
    (h : restoreLoop items ending extensions height bound fuel 0 (firstItem items) = some r)
    (hnodup : (r.calls.map ExtensionCall.metadata).Nodup)
    (hreached : Reached items ending extensions height n st) : ¬ Idle extensions height n st := by
  rintro ⟨name, format, extension, hcall, hidle⟩
  obtain ⟨fuel₁, r₁, hr₁, hsuffix⟩ := hreached.exists_restoreLoop h
  obtain ⟨result, answers, st', r₂, hrun, rfl, hr₂⟩ := hcall.exists_of_restoreLoop hr₁
  rw [runExtension_of_some hidle] at hrun
  obtain ⟨rfl, rfl, rfl⟩ : none = result ∧ [] = answers ∧ st = st' := by simpa using hrun
  rw [if_pos ⟨rfl, by rw [hcall.item_eq]; rfl⟩] at hr₂
  -- the next round finds the same item
  obtain ⟨_, _, _, r₃, -, rfl, -⟩ := hcall.exists_of_restoreLoop hr₂
  have hdistinct := hnodup.sublist (hsuffix.sublist.map ExtensionCall.metadata)
  simp at hdistinct

end Termination

/-- **When a restore ends and calls once.** For extensions that return after finitely many reads,
`doRestoreSnapshot` returns, with calls for different metadata items of the stream, if and only if
no call of `RestoreExtension` that it comes to returns `nil` without a read. -/
theorem calledOnce_iff (opened : Except RestoreError Unit) (multistore : Snapshotter)
    (extensions : Extensions) (height : UInt64) (format : UInt32) (stream : List SnapshotItem)
    (ending : ReadError)
    (hfinish : ∀ name extension, extensions.lookup name = some extension → extension.Finishes) :
    (∃ fuel bound r, doRestoreSnapshot opened multistore extensions height format stream ending
        fuel bound = some r ∧ (r.calls.map ExtensionCall.metadata).Nodup ∧
        ∀ items, multistore.restore height format stream = .ok items →
          ∀ call ∈ r.calls, IsMetadata items call.metadata) ↔
    ∀ items, opened = .ok () → multistore.restore height format stream = .ok items →
      ∀ n st, Reached items ending extensions height n st → ¬ Idle extensions height n st := by
  cases opened with
  | error e =>
    refine iff_of_true ⟨0, 0, _, rfl, List.nodup_nil, fun _ _ _ hcall => ?_⟩
      fun _ hopened => by cases hopened
    exact absurd hcall List.not_mem_nil
  | ok u =>
    cases hrestore : multistore.restore height format stream with
    | error e =>
      refine iff_of_true ⟨0, 0, ⟨some (.multistore e), [], 0⟩, ?_, List.nodup_nil, ?_⟩ ?_
      · rw [doRestoreSnapshot, hrestore]
      · intro _ _ _ hcall
        exact absurd hcall List.not_mem_nil
      · intro _ _ hitems
        cases hitems
    | ok items =>
      have hloop : ∀ fuel bound, doRestoreSnapshot (.ok u) multistore extensions height format
          stream ending fuel bound =
            restoreLoop items ending extensions height bound fuel 0 (firstItem items) := by
        intro fuel bound
        rw [doRestoreSnapshot, hrestore]
      constructor
      · rintro ⟨fuel, bound, r, hr, hnodup, -⟩ items' - hitems n st hreached
        obtain rfl := Except.ok.inj hitems
        exact not_idle_of_calledOnce (hloop fuel bound ▸ hr) hnodup hreached
      · intro hbusy
        obtain ⟨fuel, least, r, honce, hrun⟩ :=
          exists_restoreLoop hfinish (hbusy items rfl rfl) .first
        refine ⟨fuel, least, r, (hloop fuel least).trans (hrun least le_rfl), honce.nodup, ?_⟩
        rintro items' hitems call hcall
        obtain rfl := Except.ok.inj hitems
        exact (honce.metadata call hcall).2

/-- An extension that reads a number of times finishes. -/
theorem finishes_readingExtension (n : ℕ) : (readingExtension n).Finishes := by
  intro _ _ _ answers
  refine ⟨n, ?_⟩
  simp [readingExtension]

/-- An extension with two payloads that reads until `io.EOF`. -/
theorem calledOnce_iff_of_exhausted :
    (∃ fuel bound r, doRestoreSnapshot (.ok ()) emptyMultistore
        ((∅ : Extensions).insert [97] (readingExtension 3)) 7 3
        [.extension [97] 1, .extensionPayload [1], .extensionPayload [2]] .eof fuel bound =
          some r ∧ (r.calls.map ExtensionCall.metadata).Nodup ∧
        ∀ items, emptyMultistore.restore 7 3
            [.extension [97] 1, .extensionPayload [1], .extensionPayload [2]] = .ok items →
          ∀ call ∈ r.calls, IsMetadata items call.metadata) ↔
    ∀ items, (.ok () : Except RestoreError Unit) = .ok () → emptyMultistore.restore 7 3
        [.extension [97] 1, .extensionPayload [1], .extensionPayload [2]] = .ok items →
      ∀ n st, Reached items .eof ((∅ : Extensions).insert [97] (readingExtension 3)) 7 n st →
        ¬ Idle ((∅ : Extensions).insert [97] (readingExtension 3)) 7 n st := by
  refine calledOnce_iff _ _ _ _ _ _ _ fun name extension hlookup => ?_
  rw [lookup_insert_ite] at hlookup
  split_ifs at hlookup
  · obtain rfl := Option.some.inj hlookup
    exact finishes_readingExtension 3
  · cases hlookup

/-- **An extension that has nothing to read hangs**: it returns `nil` at once, and is called for
its metadata item again and again. -/
theorem idle_extension_hangs : (readingExtension 0).Finishes ∧ ∀ fuel bound,
    doRestoreSnapshot (.ok ()) emptyMultistore
      ((∅ : Extensions).insert [97] (readingExtension 0)) 7 3 [.extension [97] 1] .eof fuel
      bound = none := by
  refine ⟨finishes_readingExtension 0, fun fuel bound => ?_⟩
  have hloop : ∀ n, restoreLoop [.extension [97] 1] .eof
      ((∅ : Extensions).insert [97] (readingExtension 0)) 7 bound fuel n
      ⟨1, .extension [97] 1⟩ = none := by
    induction fuel with
    | zero => exact fun _ => rfl
    | succ fuel ih =>
      intro n
      have hcall : CallFor ((∅ : Extensions).insert [97] (readingExtension 0))
          ⟨1, .extension [97] 1⟩ [97] 1 (readingExtension 0) := ⟨rfl, rfl, rfl⟩
      have hidle : (readingExtension 0).restoreExtension n 7 1 [] = some none := rfl
      rw [hcall.restoreLoop_of_rest (runExtension_of_some hidle bound _) rfl, ih]
      rfl
  exact hloop 0

end MelodiaStore
