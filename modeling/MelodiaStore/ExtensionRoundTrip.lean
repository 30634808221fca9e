import MelodiaStore.Extensions

/-!
# Extension Snapshots Round-Trip

What `createSnapshot` writes is read back by `doRestoreSnapshot`. The stream has no marks between
the extensions but the kinds of its items: a run of payloads ends at the next metadata item, or
at the end of the stream.

## Main results

* `extensions_roundTrip`: each extension is called once, in the order of the names, and gets the
  payloads it wrote.
-/

namespace MelodiaStore

/-! ### The order of the extensions -/

section Register

variable {registered result : Extensions} {list : List (Bytes × ExtensionSnapshotter)}

/-- **What `RegisterExtensions` accepts**: new and distinct names, and extensions that can read what
they write. -/
theorem registerExtensions_eq_none (h : registerExtensions registered list = (result, none)) :
    (list.map Prod.fst).Nodup ∧ (∀ e ∈ list, registered.lookup e.1 = none) ∧
      (∀ e ∈ list, isFormatSupported e.2 e.2.snapshotFormat = true) ∧
      ∀ name extension, result.lookup name = some extension ↔
        (name, extension) ∈ list ∨ registered.lookup name = some extension := by
  induction list generalizing registered with
  | nil =>
    cases h
    exact ⟨List.nodup_nil, fun e he => absurd he List.not_mem_nil,
      fun e he => absurd he List.not_mem_nil, fun name extension => by simp⟩
  | cons e list ih =>
    obtain ⟨name, extension⟩ := e
    rw [registerExtensions] at h
    split_ifs at h with hnew hformat
    · exact absurd (congrArg Prod.snd h) (Option.some_ne_none _)
    · obtain ⟨hnodup, hfresh, hformats, hlookup⟩ := ih h
      have hname : registered.lookup name = none := by simpa using hnew
      have hother : ∀ e ∈ list, e.1 ≠ name := by
        intro e he heq
        have := hfresh e he
        rw [heq, AList.lookup_insert] at this
        cases this
      refine ⟨?_, ?_, List.forall_mem_cons.mpr ⟨hformat, hformats⟩, ?_⟩
      · rw [List.map_cons, List.nodup_cons]
        refine ⟨?_, hnodup⟩
        intro hmem
        obtain ⟨e, he, heq⟩ := List.mem_map.mp hmem
        exact hother e he heq
      · refine List.forall_mem_cons.mpr ⟨hname, ?_⟩
        intro e he
        have := hfresh e he
        rwa [AList.lookup_insert_ne (hother e he)] at this
      · intro name' extension'
        rw [hlookup, lookup_insert_ite, List.mem_cons, Prod.mk.injEq]
        split_ifs with heq
        · subst heq
          rw [hname]
          constructor
          · rintro (hmem | hmem)
            · exact .inl (.inr hmem)
            · exact .inl (.inl ⟨rfl, (Option.some.inj hmem).symm⟩)
          · rintro ((⟨-, rfl⟩ | hmem) | hnone)
            · exact .inr rfl
            · exact .inl hmem
            · cases hnone
        · simp [heq]
    · exact absurd (congrArg Prod.snd h) (Option.some_ne_none _)

theorem map_fst_sortedExtensions (extensions : Extensions) :
    (sortedExtensions extensions).map Prod.fst = sortedExtensionNames extensions := by
  have hall : ∀ name ∈ sortedExtensionNames extensions, (extensions.lookup name).isSome := by
    intro name hname
    rw [sortedExtensionNames, mem_sortStrings] at hname
    rwa [AList.lookup_isSome]
  rw [sortedExtensions]
  generalize sortedExtensionNames extensions = names at hall ⊢
  induction names with
  | nil => rfl
  | cons name names ih =>
    obtain ⟨hname, hrest⟩ := List.forall_mem_cons.mp hall
    obtain ⟨extension, hextension⟩ := Option.isSome_iff_exists.mp hname
    rw [List.filterMap_cons, hextension]
    exact congrArg (List.cons name) (ih hrest)

theorem pairwise_sortedExtensions (extensions : Extensions) :
    (sortedExtensions extensions).Pairwise fun a b => a.1 < b.1 := by
  have hnames := sortStrings_pairwise extensions.keys_nodup
  rw [← sortedExtensionNames, ← map_fst_sortedExtensions] at hnames
  exact List.pairwise_map.mp hnames

/-- The extensions that are registered. -/
theorem mem_sortedExtensions {extensions : Extensions} {name : Bytes}
    {extension : ExtensionSnapshotter} :
    (name, extension) ∈ sortedExtensions extensions ↔ extensions.lookup name = some extension := by
  rw [sortedExtensions, List.mem_filterMap]
  constructor
  · rintro ⟨name', -, heq⟩
    obtain ⟨extension', hlookup, heq⟩ := Option.map_eq_some_iff.mp heq
    cases heq
    exact hlookup
  · intro hlookup
    refine ⟨name, ?_, by rw [hlookup]; rfl⟩
    rw [sortedExtensionNames, mem_sortStrings, ← AList.mem_keys, ← AList.lookup_isSome, hlookup]
    rfl

/-- The extensions that were registered, in the order of their names. -/
theorem sortedExtensions_perm (h : registerExtensions ∅ list = (result, none)) :
    (sortedExtensions result).Perm list := by
  obtain ⟨hnodup, -, -, hlookup⟩ := registerExtensions_eq_none h
  have hsorted : (sortedExtensions result).Nodup :=
    (pairwise_sortedExtensions result).imp fun hlt heq => hlt.ne (congrArg Prod.fst heq)
  refine (List.perm_ext_iff_of_nodup hsorted (List.Nodup.of_map _ hnodup)).mpr ?_
  rintro ⟨name, extension⟩
  rw [mem_sortedExtensions, hlookup, AList.lookup_empty]
  simp

end Register

/-! ### The stream -/

/-- The items of an extension. -/
def ownItems (height : UInt64) (e : Bytes × ExtensionSnapshotter) : List SnapshotItem :=
  .extension e.1 e.2.snapshotFormat :: (e.2.snapshotExtension height).1.map .extensionPayload

/-- The items of some extensions. -/
def allItems (height : UInt64) (list : List (Bytes × ExtensionSnapshotter)) : List SnapshotItem :=
  list.flatMap (ownItems height)

/-- All extensions are written. -/
theorem writeExtensions_eq {height : UInt64} {list : List (Bytes × ExtensionSnapshotter)}
    (h : ∀ e ∈ list, (e.2.snapshotExtension height).2 = none) :
    writeExtensions height list = (allItems height list, .eof) := by
  induction list with
  | nil => rfl
  | cons e list ih =>
    obtain ⟨hfirst, hrest⟩ := List.forall_mem_cons.mp h
    rw [writeExtensions, hfirst, ih hrest]
    rfl

/-- An extension that calls `payloadReader` until it returns `io.EOF`, and then returns `nil`. -/
def ReadsUntilEOF (extension : ExtensionSnapshotter) : Prop :=
  ∀ n height format (payloads : List Bytes),
    extension.restoreExtension n height format (payloads.map .ok) = none ∧
      extension.restoreExtension n height format (payloads.map .ok ++ [.error .eof]) = some none

/-- The place behind the first of the items that are left, with that item in `nextItem`. -/
def stateAt (pos : ℕ) : List SnapshotItem → RestoreState
  | [] => ⟨pos, .empty⟩
  | item :: _ => ⟨pos + 1, item⟩

theorem firstItem_eq (items : List SnapshotItem) : firstItem items = stateAt 0 items := by
  cases items <;> rfl

section Read

variable {items left : List SnapshotItem} {pos : ℕ}

/-- A payload is read. -/
theorem payloadReader_of_payload {st : RestoreState} {payload : Bytes}
    (h : items.drop st.pos = .extensionPayload payload :: left) (ending : ReadError) :
    payloadReader items ending st = (.ok payload, ⟨st.pos + 1, .extensionPayload payload⟩) := by
  have hitem : items[st.pos]? = some (.extensionPayload payload) := by
    rw [← List.head?_drop, h]
    rfl
  rw [payloadReader, hitem]
  rfl

/-- Behind the payloads of an extension comes the end, or a metadata item. -/
def AtBoundary (left : List SnapshotItem) : Prop :=
  left = [] ∨ ∃ name format rest, left = .extension name format :: rest

/-- The payloads of an extension end. -/
theorem payloadReader_of_boundary {st : RestoreState} (h : items.drop st.pos = left)
    (hleft : AtBoundary left) :
    payloadReader items .eof st = (.error .eof, stateAt st.pos left) := by
  have hitem : items[st.pos]? = left.head? := by rw [← List.head?_drop, h]
  rcases hleft with rfl | ⟨name, format, rest, rfl⟩
  · rw [payloadReader, hitem]
    rfl
  · rw [payloadReader, hitem]
    rfl

/-- **An extension that reads until `io.EOF`** gets the payloads in front of it, and leaves the item
behind them in `nextItem`. -/
theorem runExtension_of_readsUntilEOF {next : List PayloadAnswer → Option (Option String)}
    (hread : ∀ payloads : List Bytes, next (payloads.map .ok) = none)
    (hstop : ∀ payloads : List Bytes, next (payloads.map .ok ++ [.error .eof]) = some none)
    {bound : ℕ} {payloads before : List Bytes} {st : RestoreState}
    (hdrop : items.drop st.pos = payloads.map .extensionPayload ++ left) (hleft : AtBoundary left)
    (hbound : payloads.length < bound) :
    runExtension items .eof next bound (before.map .ok) st =
      some (none, (before ++ payloads).map .ok ++ [.error .eof],
        stateAt (st.pos + payloads.length) left) := by
  induction payloads generalizing bound before st with
  | nil =>
    cases bound with
    | zero => cases hbound
    | succ bound =>
      rw [runExtension_of_none (hread before), payloadReader_of_boundary hdrop hleft,
        runExtension_of_some (hstop before), List.append_nil]
      rfl
  | cons payload payloads ih =>
    cases bound with
    | zero => cases hbound
    | succ bound =>
      rw [runExtension_of_none (hread before), payloadReader_of_payload hdrop]
      have hrest : items.drop (st.pos + 1) = payloads.map .extensionPayload ++ left := by
        rw [← List.drop_drop, hdrop]
        rfl
      have hmap : before.map (.ok : Bytes → PayloadAnswer) ++ [.ok payload] =
          (before ++ [payload]).map .ok := by
        rw [List.map_append]
        rfl
      have hrun := @ih bound (before ++ [payload])
        ⟨st.pos + 1, .extensionPayload payload⟩ hrest (Nat.lt_of_succ_lt_succ hbound)
      rw [hmap, hrun, List.append_assoc, List.length_cons, Nat.add_assoc, Nat.add_comm 1]
      rfl

/-- An extension begins with its metadata. -/
theorem atBoundary_allItems (height : UInt64) (list : List (Bytes × ExtensionSnapshotter)) :
    AtBoundary (allItems height list) := by
  cases list with
  | nil => exact .inl rfl
  | cons e list => exact .inr ⟨e.1, e.2.snapshotFormat, _, rfl⟩

theorem AtBoundary.getExtensionPayload_stateAt (h : AtBoundary left) (pos : ℕ) :
    (stateAt pos left).nextItem.getExtensionPayload = none := by
  rcases h with rfl | ⟨name, format, rest, rfl⟩
  · rfl
  · rfl

/-- What a call received: the name, the format and the answers of `payloadReader`. -/
def ExtensionCall.received (call : ExtensionCall) : Bytes × UInt32 × List PayloadAnswer :=
  (call.name, call.format, call.answers)

/-- What an extension is to receive: the payloads it wrote, and then `io.EOF`. -/
def toReceive (height : UInt64) (e : Bytes × ExtensionSnapshotter) :
    Bytes × UInt32 × List PayloadAnswer :=
  (e.1, e.2.snapshotFormat, (e.2.snapshotExtension height).1.map .ok ++ [.error .eof])

/-- **The loop**: the extensions whose items are left are called one after the other. -/
theorem restoreLoop_allItems {extensions : Extensions} {height : UInt64} {bound fuel n : ℕ}
    {list : List (Bytes × ExtensionSnapshotter)}
    (hlookup : ∀ e ∈ list, extensions.lookup e.1 = some e.2)
    (hformat : ∀ e ∈ list, isFormatSupported e.2 e.2.snapshotFormat = true)
    (hreads : ∀ e ∈ list, ReadsUntilEOF e.2)
    (hbound : ∀ e ∈ list, (e.2.snapshotExtension height).1.length < bound)
    (hfuel : list.length < fuel) (hpos : pos ≤ items.length)
    (hdrop : items.drop pos = allItems height list) :
    ∃ calls, restoreLoop items .eof extensions height bound fuel n
        (stateAt pos (allItems height list)) = some ⟨none, calls, items.length⟩ ∧
      calls.map ExtensionCall.received = list.map (toReceive height) := by
  induction list generalizing fuel n pos with
  | nil =>
    have hend : pos = items.length := le_antisymm hpos (List.drop_eq_nil_iff.mp hdrop)
    cases fuel with
    | zero => cases hfuel
    | succ fuel =>
      refine ⟨[], ?_, rfl⟩
      rw [← hend]
      exact restoreLoop_of_empty rfl
  | cons e list ih =>
    obtain ⟨hlookup₁, hlookup₂⟩ := List.forall_mem_cons.mp hlookup
    obtain ⟨hformat₁, hformat₂⟩ := List.forall_mem_cons.mp hformat
    obtain ⟨hreads₁, hreads₂⟩ := List.forall_mem_cons.mp hreads
    obtain ⟨hbound₁, hbound₂⟩ := List.forall_mem_cons.mp hbound
    obtain ⟨name, extension⟩ := e
    cases fuel with
    | zero => cases hfuel
    | succ fuel =>
      have hrest : items.drop (pos + 1) =
          (extension.snapshotExtension height).1.map .extensionPayload ++
            allItems height list := by
        rw [← List.drop_drop, hdrop]
        rfl
      have hrun := @runExtension_of_readsUntilEOF items _ _
        (fun payloads => (hreads₁ n height extension.snapshotFormat payloads).1)
        (fun payloads => (hreads₁ n height extension.snapshotFormat payloads).2)
        bound _ [] ⟨pos + 1, .extension name extension.snapshotFormat⟩ hrest
        (atBoundary_allItems height list) hbound₁
      have hnext : items.drop (pos + 1 + (extension.snapshotExtension height).1.length) =
          allItems height list := by
        rw [← List.drop_drop, hrest, List.drop_left' (List.length_map _)]
      have hlt : pos < items.length := by
        have := congrArg List.length hdrop
        rw [List.length_drop, allItems, List.flatMap_cons, ownItems] at this
        simp only [List.length_append, List.length_cons] at this
        omega
      have hle : pos + 1 + (extension.snapshotExtension height).1.length ≤ items.length := by
        have := congrArg List.length hrest
        rw [List.length_drop, List.length_append, List.length_map] at this
        omega
      have hrounds : list.length < fuel := Nat.lt_of_succ_lt_succ hfuel
      obtain ⟨calls, hcalls, hreceived⟩ :=
        ih (n := n + 1) hlookup₂ hformat₂ hreads₂ hbound₂ hrounds hle hnext
      refine ⟨_, (CallFor.restoreLoop_of_rest ⟨rfl, hlookup₁, hformat₁⟩ hrun
        ((atBoundary_allItems height list).getExtensionPayload_stateAt _)).trans
          (congrArg _ hcalls), ?_⟩
      rw [List.map_cons, hreceived]
      rfl

end Read

/-- **Extension snapshots round-trip**: the items that `createSnapshot` writes for the registered
extensions are restored with one call for each of them, in the order of their names, each of
which gets the payloads of the extension. -/
theorem extensions_roundTrip {list : List (Bytes × ExtensionSnapshotter)}
    {extensions : Extensions} {multistore : Snapshotter} {height : UInt64} {format : UInt32}
    {own : List SnapshotItem} {fuel bound : ℕ}
    (hregister : registerExtensions ∅ list = (extensions, none))
    (hsnapshot : multistore.snapshot height = (own, none))
    (hrestore : ∀ items, AtBoundary items →
      multistore.restore height format (own ++ items) = .ok items)
    (hwrites : ∀ e ∈ list, (e.2.snapshotExtension height).2 = none)
    (hreads : ∀ e ∈ list, ReadsUntilEOF e.2) (hfuel : list.length < fuel)
    (hbound : ∀ e ∈ list, (e.2.snapshotExtension height).1.length < bound) :
    ∃ (r : Restored) (ordered : List (Bytes × ExtensionSnapshotter)),
      doRestoreSnapshot (.ok ()) multistore extensions height format
        (createSnapshot multistore extensions height).1
        (createSnapshot multistore extensions height).2 fuel bound = some r ∧
      r.err = none ∧ ordered.Perm list ∧ (ordered.Pairwise fun a b => a.1 < b.1) ∧
      r.calls.map ExtensionCall.received = ordered.map (toReceive height) := by
  have hperm := sortedExtensions_perm hregister
  have hsorted : ∀ {P : Bytes × ExtensionSnapshotter → Prop}, (∀ e ∈ list, P e) →
      ∀ e ∈ sortedExtensions extensions, P e := fun h e he => h e (hperm.mem_iff.mp he)
  obtain ⟨-, -, hformats, -⟩ := registerExtensions_eq_none hregister
  have hcreate : createSnapshot multistore extensions height =
      (own ++ allItems height (sortedExtensions extensions), .eof) := by
    rw [createSnapshot, hsnapshot]
    dsimp only
    rw [writeExtensions_eq (hsorted hwrites)]
  obtain ⟨calls, hcalls, hreceived⟩ :=
    @restoreLoop_allItems (allItems height (sortedExtensions extensions)) 0 extensions height bound
      fuel 0 (sortedExtensions extensions) (fun e he => mem_sortedExtensions.mp he)
      (hsorted hformats) (hsorted hreads) (hsorted hbound) (hperm.length_eq ▸ hfuel)
      (Nat.zero_le _) rfl
  refine ⟨⟨none, calls, (allItems height (sortedExtensions extensions)).length⟩,
    sortedExtensions extensions, ?_, rfl, hperm, pairwise_sortedExtensions extensions, hreceived⟩
  rw [hcreate, doRestoreSnapshot, hrestore _ (atBoundary_allItems height _)]
  dsimp only
  rw [firstItem_eq]
  exact hcalls

/-- An extension that writes some payloads and reads until an error. -/
def plainExtension (payloads : List Bytes) : ExtensionSnapshotter where
  snapshotFormat := 1
  supportedFormats := [1]
  snapshotExtension _ := (payloads, none)
  restoreExtension _ _ _ answers :=
    if answers.all (fun answer => answer.toBool) then none else some none

/-- It reads all its payloads. -/
theorem readsUntilEOF_plainExtension (payloads : List Bytes) :
    ReadsUntilEOF (plainExtension payloads) := by
  intro n height format received
  simp [plainExtension, Except.toBool]

/-- The items of a multistore: the names of its stores and their nodes. -/
def SnapshotItem.isOwn : SnapshotItem → Bool
  | .store _ | .iavl _ _ _ _ => true
  | _ => false

/-- A multistore with one store of one node. Like `Restore` of `rootmulti.Store` it reads on as
long as the items are of its own kinds, and returns with the first one that is not. -/
def oneNodeMultistore : Snapshotter where
  snapshot _ := ([.store [1], .iavl [1] [2] 1 0], none)
  restore _ _ items := .ok (items.dropWhile SnapshotItem.isOwn)

/-- What is behind the items of a multistore stays, if it is not of their kinds. -/
theorem dropWhile_isOwn {own items : List SnapshotItem} (hown : ∀ item ∈ own, item.isOwn = true)
    (hitems : AtBoundary items) : (own ++ items).dropWhile SnapshotItem.isOwn = items := by
  rw [List.dropWhile_append_of_pos hown]
  rcases hitems with rfl | ⟨name, format, rest, rfl⟩
  · rfl
  · rfl

/-- Two extensions, one with an empty payload and one without payloads. -/
def twoExtensions : List (Bytes × ExtensionSnapshotter) :=
  [([98], plainExtension [[1], []]), ([97], plainExtension [])]

/-- The two extensions behind a multistore that tells its items from theirs by their kinds. -/
theorem extensions_roundTrip_of_two :
    ∃ (r : Restored) (ordered : List (Bytes × ExtensionSnapshotter)),
      doRestoreSnapshot (.ok ()) oneNodeMultistore (registerExtensions ∅ twoExtensions).1 7 3
        (createSnapshot oneNodeMultistore (registerExtensions ∅ twoExtensions).1 7).1
        (createSnapshot oneNodeMultistore (registerExtensions ∅ twoExtensions).1 7).2 3 3 = some r ∧
      r.err = none ∧ ordered.Perm twoExtensions ∧ (ordered.Pairwise fun a b => a.1 < b.1) ∧
      r.calls.map ExtensionCall.received = ordered.map (toReceive 7) := by
  refine @extensions_roundTrip twoExtensions _ oneNodeMultistore 7 3 _ 3 3 rfl rfl
    (fun items hitems => congrArg _ (dropWhile_isOwn (by simp [SnapshotItem.isOwn]) hitems)) ?_ ?_
    (by decide) ?_
  · simp [twoExtensions, plainExtension]
  · simp [twoExtensions, readsUntilEOF_plainExtension]
  · simp [twoExtensions, plainExtension]

end MelodiaStore
