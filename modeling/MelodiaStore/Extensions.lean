import MelodiaStore.ChunkStream
import MelodiaStore.Store

/-!
# Extension Snapshots

`createSnapshot` and `doRestoreSnapshot` of `snapshots/manager.go`. A snapshot is a stream of
items: those of the multistore, and then, for each registered extension, a metadata item and the
payloads of the extension. On a restore the multistore reads its items and returns the first one
that is not its own; each extension then reads its payloads through `payloadReader`, which
returns `io.EOF` at the next item that is not a payload and keeps that item in `nextItem`.

An extension is code of its own. What it does in `RestoreExtension` depends on what its reads
returned, so it is a function of the answers so far: it reads on, or returns. Protobuf and zlib
are lossless, so the stream is the list of the items that can be read and the error behind them.

## Main results

* `consumed_iff`: a restore that returns `nil` has read the whole snapshot, with one call for each
  metadata item, exactly if every call reads on to the next metadata item, or to the end, and no
  further.
* `consumed_fails`: an extension stops early, and the error that should report it wraps `nil`.
-/

namespace MelodiaStore

/-! ### Items -/

/-- `types.SnapshotItem`; an item whose `Item` is `nil` is `empty`. -/
inductive SnapshotItem
  | empty
  | store (name : Bytes)
  | iavl (key value : Bytes) (version height : ℤ)
  | extension (name : Bytes) (format : UInt32)
  | extensionPayload (payload : Bytes)
  deriving DecidableEq

namespace SnapshotItem

/-- `SnapshotItem.GetExtension`. -/
def getExtension : SnapshotItem → Option (Bytes × UInt32)
  | extension name format => some (name, format)
  | _ => none

/-- `SnapshotItem.GetExtensionPayload`. -/
def getExtensionPayload : SnapshotItem → Option Bytes
  | extensionPayload payload => some payload
  | _ => none

theorem getExtension_eq_some {item : SnapshotItem} {name : Bytes} {format : UInt32} :
    item.getExtension = some (name, format) ↔ item = extension name format := by
  cases item <;> simp [getExtension]

end SnapshotItem

/-! ### Extensions -/

/-- What `payloadReader` returns. -/
abbrev PayloadAnswer := Except ReadError Bytes

/-- `types.ExtensionSnapshotter`. `snapshotExtension` gives the payloads that are written and the
error that is returned. `restoreExtension` gives, for the number of calls made before and the
answers of `payloadReader` in this one, what is returned, or that `payloadReader` is called
(again). -/
structure ExtensionSnapshotter where
  snapshotFormat : UInt32
  supportedFormats : List UInt32
  snapshotExtension : UInt64 → List Bytes × Option String
  restoreExtension : ℕ → UInt64 → UInt32 → List PayloadAnswer → Option (Option String)

/-- The extensions of a manager, by their names. -/
abbrev Extensions := GoMap Bytes ExtensionSnapshotter

/-- `IsFormatSupported`. -/
def isFormatSupported (snapshotter : ExtensionSnapshotter) (format : UInt32) : Bool :=
  snapshotter.supportedFormats.any (· == format)

/-- The errors of `Manager.RegisterExtensions`. -/
inductive RegisterError
  /-- duplicated snapshotter name -/
  | duplicatedName (name : Bytes)
  /-- snapshotter don't support it's own snapshot format -/
  | ownFormat (name : Bytes) (format : UInt32)

/-- `Manager.RegisterExtensions`; the extensions before one that is refused stay registered. -/
def registerExtensions (registered : Extensions) :
    List (Bytes × ExtensionSnapshotter) → Extensions × Option RegisterError
  | [] => (registered, none)
  | (name, extension) :: extensions =>
    if (registered.lookup name).isSome then (registered, some (.duplicatedName name))
    else if ¬isFormatSupported extension extension.snapshotFormat then
      (registered, some (.ownFormat name extension.snapshotFormat))
    else registerExtensions (registered.insert name extension) extensions

/-- `Manager.sortedExtensionNames`. -/
def sortedExtensionNames (extensions : Extensions) : List Bytes := sortStrings extensions.keys

/-! ### Writing a snapshot -/

/-- `types.Snapshotter`, the multistore. `snapshot` gives the items that are written and the error
that is returned. `restore` reads the items of the multistore and gives those behind them; the code
returns the first of those, or an empty item at the end. -/
structure Snapshotter where
  snapshot : UInt64 → List SnapshotItem × Option String
  restore : UInt64 → UInt32 → List SnapshotItem → Except String (List SnapshotItem)

/-- The loop of `createSnapshot` over the extensions: the items, and what the stream is closed
with. -/
def writeExtensions (height : UInt64) :
    List (Bytes × ExtensionSnapshotter) → List SnapshotItem × ReadError
  | [] => ([], .eof)
  | (name, extension) :: extensions =>
    let own := .extension name extension.snapshotFormat ::
      (extension.snapshotExtension height).1.map .extensionPayload
    match (extension.snapshotExtension height).2 with
    | some e => (own, .other e)
    | none =>
      let rest := writeExtensions height extensions
      (own ++ rest.1, rest.2)

/-- The extensions in the order of their names. -/
def sortedExtensions (extensions : Extensions) : List (Bytes × ExtensionSnapshotter) :=
  (sortedExtensionNames extensions).filterMap fun name =>
    (extensions.lookup name).map (name, ·)

/-- `Manager.createSnapshot`: the items of the stream, and what it is closed with. -/
def createSnapshot (multistore : Snapshotter) (extensions : Extensions) (height : UInt64) :
    List SnapshotItem × ReadError :=
  match (multistore.snapshot height).2 with
  | some e => ((multistore.snapshot height).1, .other e)
  | none =>
    let rest := writeExtensions height (sortedExtensions extensions)
    ((multistore.snapshot height).1 ++ rest.1, rest.2)

/-! ### Reading a snapshot -/

/-- The errors of `doRestoreSnapshot`. -/
inductive RestoreError
  /-- failed to create snapshot directory -/
  | directory
  /-- zlib failure -/
  | zlib
  /-- multistore restore -/
  | multistore (e : String)
  /-- `ErrLogic`: unknown snapshot item -/
  | unknownItem (item : SnapshotItem)
  /-- `ErrLogic`: unknown extension snapshotter -/
  | unknownExtension (name : Bytes)
  /-- `ErrUnknownFormat` for an extension -/
  | unknownFormat (format : UInt32) (name : Bytes)
  /-- an extension's own error, wrapped with: extension restore -/
  | extension (name : Bytes) (e : String)
  /-- an error, wrapped with: extension don't exhausted payload stream -/
  | notExhausted (name : Bytes) (e : RestoreError)

/-- `errorsmod.Wrapf`: what wraps `nil` is `nil`. -/
def wrapf (err : Option RestoreError) (wrap : RestoreError → RestoreError) : Option RestoreError :=
  err.map wrap

/-- How far the stream was read, and `nextItem`. -/
structure RestoreState where
  pos : ℕ
  nextItem : SnapshotItem

/-- A call of `RestoreExtension`: the place of its metadata item, the name and the format in it,
what its reads returned, and how far the stream was read when it returned. -/
structure ExtensionCall where
  metadata : ℕ
  name : Bytes
  format : UInt32
  answers : List PayloadAnswer
  read : ℕ

/-- What a restore returns, the calls it made, and how far it read the stream. -/
structure Restored where
  err : Option RestoreError
  calls : List ExtensionCall
  read : ℕ

section Restore

variable (items : List SnapshotItem) (ending : ReadError)

/-- `payloadReader` of `doRestoreSnapshot`. -/
def payloadReader (st : RestoreState) : PayloadAnswer × RestoreState :=
  match items[st.pos]? with
  | none => (.error ending, { st with nextItem := .empty })
  | some item =>
    match item.getExtensionPayload with
    | none => (.error .eof, ⟨st.pos + 1, item⟩)
    | some payload => (.ok payload, ⟨st.pos + 1, item⟩)

/-- A run of `RestoreExtension`, with a bound on its calls of `payloadReader`. -/
def runExtension (next : List PayloadAnswer → Option (Option String)) :
    ℕ → List PayloadAnswer → RestoreState →
      Option (Option String × List PayloadAnswer × RestoreState)
  | 0, answers, st =>
    match next answers with
    | some result => some (result, answers, st)
    | none => none
  | bound + 1, answers, st =>
    match next answers with
    | some result => some (result, answers, st)
    | none =>
      let (answer, st') := payloadReader items ending st
      runExtension next bound (answers ++ [answer]) st'

variable {items ending} {next : List PayloadAnswer → Option (Option String)} in
theorem runExtension_of_some {result : Option String} (h : next answers = some result) (bound : ℕ)
    (st : RestoreState) :
    runExtension items ending next bound answers st = some (result, answers, st) := by
  cases bound with
  | zero => rw [runExtension, h]
  | succ bound => rw [runExtension, h]

variable {items ending} in
/-- The extension reads one more payload. -/
theorem runExtension_of_none (h : next answers = none) (bound : ℕ) (st : RestoreState) :
    runExtension items ending next (bound + 1) answers st = runExtension items ending next bound
      (answers ++ [(payloadReader items ending st).1]) (payloadReader items ending st).2 := by
  rw [runExtension, h]

variable (extensions : Extensions) (height : UInt64) (bound : ℕ)

/-- The loop of `doRestoreSnapshot`, with a bound on its rounds, after `n` calls of
`RestoreExtension`. -/
def restoreLoop : ℕ → ℕ → RestoreState → Option Restored
  | 0, _, _ => none
  | fuel + 1, n, st =>
    if st.nextItem = .empty then some ⟨none, [], st.pos⟩
    else
      match st.nextItem.getExtension with
      | none => some ⟨some (.unknownItem st.nextItem), [], st.pos⟩
      | some (name, format) =>
        match extensions.lookup name with
        | none => some ⟨some (.unknownExtension name), [], st.pos⟩
        | some extension =>
          if ¬isFormatSupported extension format then
            some ⟨some (.unknownFormat format name), [], st.pos⟩
          else
            match runExtension items ending (extension.restoreExtension n height format)
                bound [] st with
            | none => none
            | some (result, answers, st') =>
              let call := ⟨st.pos - 1, name, format, answers, st'.pos⟩
              match result with
              | some e => some ⟨some (.extension name e), [call], st'.pos⟩
              | none =>
                if st'.nextItem.getExtensionPayload.isSome then
                  -- the error that is wrapped is the one of the multistore, which is nil
                  some ⟨wrapf none (.notExhausted name), [call], st'.pos⟩
                else (restoreLoop fuel (n + 1) st').map fun r =>
                  { r with calls := call :: r.calls }

variable {items ending extensions height bound} {fuel n : ℕ} {st st' : RestoreState}

/-- The loop ends with the items. -/
theorem restoreLoop_of_empty (h : st.nextItem = .empty) :
    restoreLoop items ending extensions height bound (fuel + 1) n st = some ⟨none, [], st.pos⟩ := by
  rw [restoreLoop, if_pos h]

variable {name : Bytes} {format : UInt32} {extension : ExtensionSnapshotter}
  {answers : List PayloadAnswer}

/-- The item at which a round begins is for a registered extension, in a format it supports. -/
structure CallFor (extensions : Extensions) (st : RestoreState) (name : Bytes) (format : UInt32)
    (extension : ExtensionSnapshotter) : Prop where
  item_eq : st.nextItem = .extension name format
  lookup_eq : extensions.lookup name = some extension
  supported : isFormatSupported extension format = true

/-- A round without a call is the last one, and returns an error unless there is no item. -/
theorem restoreLoop_of_no_call
    (h : ∀ name format extension, ¬ CallFor extensions st name format extension) :
    ∃ err, (err = none → st.nextItem = .empty) ∧ ∀ bound fuel n,
      restoreLoop items ending extensions height bound (fuel + 1) n st =
        some ⟨err, [], st.pos⟩ := by
  by_cases hempty : st.nextItem = .empty
  · exact ⟨none, fun _ => hempty, fun bound fuel n => restoreLoop_of_empty hempty⟩
  · cases hmeta : st.nextItem.getExtension with
    | none =>
      refine ⟨some (.unknownItem st.nextItem), fun h => ?_, fun bound fuel n => ?_⟩
      · cases h
      · rw [restoreLoop, if_neg hempty, hmeta]
    | some metadata =>
      obtain ⟨name, format⟩ := metadata
      cases hlookup : extensions.lookup name with
      | none =>
        refine ⟨some (.unknownExtension name), fun h => ?_, fun bound fuel n => ?_⟩
        · cases h
        · simp [restoreLoop, hempty, hmeta, hlookup]
      | some extension =>
        have hformat : ¬ isFormatSupported extension format = true := fun hformat =>
          h name format extension
            ⟨SnapshotItem.getExtension_eq_some.mp hmeta, hlookup, hformat⟩
        refine ⟨some (.unknownFormat format name), fun h => ?_, fun bound fuel n => ?_⟩
        · cases h
        · simp [restoreLoop, hempty, hmeta, hlookup, hformat]

section

variable (hcall : CallFor extensions st name format extension)
include hcall

/-- A call that returns an error is the last one. -/
theorem CallFor.restoreLoop_of_error {e : String}
    (hrun : runExtension items ending (extension.restoreExtension n height format) bound [] st =
      some (some e, answers, st')) :
    restoreLoop items ending extensions height bound (fuel + 1) n st =
      some ⟨some (.extension name e), [⟨st.pos - 1, name, format, answers, st'.pos⟩], st'.pos⟩ := by
  simp [restoreLoop, hcall.item_eq, SnapshotItem.getExtension, hcall.lookup_eq, hcall.supported,
    hrun]

section

variable
  (hrun : runExtension items ending (extension.restoreExtension n height format) bound [] st =
    some (none, answers, st'))
include hrun

/-- A call that leaves a payload in `nextItem` is the last one. -/
theorem CallFor.restoreLoop_of_payload (hpayload : st'.nextItem.getExtensionPayload ≠ none) :
    restoreLoop items ending extensions height bound (fuel + 1) n st =
      some ⟨none, [⟨st.pos - 1, name, format, answers, st'.pos⟩], st'.pos⟩ := by
  simp [restoreLoop, hcall.item_eq, SnapshotItem.getExtension, hcall.lookup_eq, hcall.supported,
    hrun, Option.isSome_iff_ne_none.mpr hpayload, wrapf]

/-- A call that leaves no payload in `nextItem` is followed by the other rounds. -/
theorem CallFor.restoreLoop_of_rest (hpayload : st'.nextItem.getExtensionPayload = none) :
    restoreLoop items ending extensions height bound (fuel + 1) n st =
      (restoreLoop items ending extensions height bound fuel (n + 1) st').map fun r =>
        { r with calls := ⟨st.pos - 1, name, format, answers, st'.pos⟩ :: r.calls } := by
  simp [restoreLoop, hcall.item_eq, SnapshotItem.getExtension, hcall.lookup_eq, hcall.supported,
    hrun, hpayload]

end

/-- **A round that calls**, in a loop that returns. The call is the first one of those the loop
makes, and if it leaves no payload in `nextItem` the others are those of the rounds behind it. -/
theorem CallFor.exists_of_restoreLoop {r : Restored}
    (h : restoreLoop items ending extensions height bound fuel n st = some r) :
    ∃ result answers st' r',
      runExtension items ending (extension.restoreExtension n height format) bound [] st =
        some (result, answers, st') ∧
      r = { r' with calls := ⟨st.pos - 1, name, format, answers, st'.pos⟩ :: r'.calls } ∧
      if result = none ∧ st'.nextItem.getExtensionPayload = none then
        restoreLoop items ending extensions height bound (fuel - 1) (n + 1) st' = some r'
      else r' = ⟨result.map (.extension name), [], st'.pos⟩ := by
  cases fuel with
  | zero => cases h
  | succ fuel =>
    cases hrun : runExtension items ending (extension.restoreExtension n height format) bound
        [] st with
    | none =>
      simp [restoreLoop, hcall.item_eq, SnapshotItem.getExtension, hcall.lookup_eq,
        hcall.supported, hrun] at h
    | some out =>
      obtain ⟨result, answers, st'⟩ := out
      cases result with
      | some e =>
        rw [hcall.restoreLoop_of_error hrun] at h
        exact ⟨_, answers, st', ⟨_, [], _⟩, rfl, (Option.some.inj h).symm, by simp⟩
      | none =>
        by_cases hpayload : st'.nextItem.getExtensionPayload = none
        · rw [hcall.restoreLoop_of_rest hrun hpayload] at h
          obtain ⟨r', hrest, rfl⟩ := Option.map_eq_some_iff.mp h
          exact ⟨_, answers, st', r', rfl, rfl, by simpa [hpayload] using hrest⟩
        · rw [hcall.restoreLoop_of_payload hrun hpayload] at h
          exact ⟨_, answers, st', ⟨_, [], _⟩, rfl, (Option.some.inj h).symm,
            by simp [hpayload]⟩

end

end Restore

/-- What the multistore's `Restore` leaves: the first item behind its own, or an empty one. -/
def firstItem (items : List SnapshotItem) : RestoreState :=
  match items with
  | [] => ⟨0, .empty⟩
  | item :: _ => ⟨1, item⟩

/-- `Manager.doRestoreSnapshot` on a stream; `opened` says whether the directory and the stream
reader could be made. Places are counted from the first item behind those of the multistore. -/
def doRestoreSnapshot (opened : Except RestoreError Unit) (multistore : Snapshotter)
    (extensions : Extensions) (height : UInt64) (format : UInt32) (stream : List SnapshotItem)
    (ending : ReadError) (fuel bound : ℕ) : Option Restored :=
  match opened with
  | .error e => some ⟨some e, [], 0⟩
  | .ok () =>
    match multistore.restore height format stream with
    | .error e => some ⟨some (.multistore e), [], 0⟩
    | .ok items => restoreLoop items ending extensions height bound fuel 0 (firstItem items)

/-! ### The whole snapshot is consumed -/

/-- There is a metadata item at a place. -/
def IsMetadata (items : List SnapshotItem) (i : ℕ) : Prop :=
  ∃ name format, items[i]? = some (.extension name format)

/-- There is a payload at a place. -/
def IsPayload (items : List SnapshotItem) (i : ℕ) : Prop :=
  ∃ payload, items[i]? = some (.extensionPayload payload)

/-- A metadata item from the place `lo` on was followed by one call, and that call read all payloads
up to the next metadata item. -/
def ServedFrom (items : List SnapshotItem) (calls : List ExtensionCall) (lo : ℕ) : Prop :=
  ∀ i, lo ≤ i → IsMetadata items i →
    ∃ call, calls.filter (fun c => c.metadata = i) = [call] ∧
      ∀ k, i < k → IsPayload items k → (∀ l, i < l → l < k → ¬IsMetadata items l) → k < call.read

/-- **The whole snapshot is consumed**: every item was read, and every metadata item was followed by
one call that read its payloads. -/
structure Consumed (items : List SnapshotItem) (r : Restored) : Prop where
  all : r.read = items.length
  each : ServedFrom items r.calls 0

/-- What a call reads when it reads its part: from the item behind its metadata item to the next
metadata item and no further, or everything, if there is none. -/
def Orderly (items : List SnapshotItem) (st st' : RestoreState) : Prop :=
  (∃ j, st.pos ≤ j ∧ IsMetadata items j ∧ (∀ k, st.pos ≤ k → k < j → ¬IsMetadata items k) ∧
      st'.pos = j + 1 ∧ st'.nextItem.getExtension ≠ none) ∨
    (∀ k, st.pos ≤ k → ¬IsMetadata items k) ∧ st'.pos = items.length ∧
      st'.nextItem.getExtension = none

section Consumed

variable {items : List SnapshotItem} {ending : ReadError} {extensions : Extensions}
  {height : UInt64} {bound k : ℕ} {n : ℕ} {st st' : RestoreState}
  {answers answers' : List PayloadAnswer} {r : Restored} {call : ExtensionCall}
  {calls : List ExtensionCall} {fuel i : ℕ} {next : List PayloadAnswer → Option (Option String)}
  {result : Option String}

/-- The `n`-th call of `RestoreExtension` is made in `st`, returns `nil` and leaves `st'`. -/
def Returns (items : List SnapshotItem) (ending : ReadError) (extensions : Extensions)
    (height : UInt64) (bound n : ℕ) (st st' : RestoreState) : Prop :=
  ∃ name format extension answers, st.nextItem = .extension name format ∧
    extensions.lookup name = some extension ∧ isFormatSupported extension format = true ∧
    runExtension items ending (extension.restoreExtension n height format) bound [] st =
      some (none, answers, st')

/-- Every call that is made from `st` on, one after the other, and that returns `nil`, reads its
part. -/
inductive OrderlyFrom (items : List SnapshotItem) (ending : ReadError) (extensions : Extensions)
    (height : UInt64) (bound : ℕ) : ℕ → RestoreState → Prop
  | intro {n : ℕ} {st : RestoreState}
      (first : ∀ st', Returns items ending extensions height bound n st st' → Orderly items st st')
      (rest : ∀ st', Returns items ending extensions height bound n st st' →
        OrderlyFrom items ending extensions height bound (n + 1) st') :
      OrderlyFrom items ending extensions height bound n st

/-- A call ends in one state. -/
theorem Returns.unique {st₁ st₂ : RestoreState}
    (h₁ : Returns items ending extensions height bound n st st₁)
    (h₂ : Returns items ending extensions height bound n st st₂) : st₁ = st₂ := by
  obtain ⟨name, format, extension, answers, hitem, hlookup, -, hrun⟩ := h₁
  obtain ⟨name', format', extension', answers', hitem', hlookup', -, hrun'⟩ := h₂
  obtain ⟨rfl, rfl⟩ : name = name' ∧ format = format' := by
    simpa using hitem.symm.trans hitem'
  obtain rfl := Option.some.inj (hlookup.symm.trans hlookup')
  have heq := Option.some.inj (hrun.symm.trans hrun')
  exact congrArg (fun outcome => outcome.2.2) heq

/-- `nextItem` is the last item that was read, or empty behind the end. -/
def Placed (items : List SnapshotItem) (st : RestoreState) : Prop :=
  0 < st.pos ∧ items[st.pos - 1]? = some st.nextItem ∨
    st.pos = items.length ∧ st.nextItem = .empty

theorem Placed.pos_le (h : Placed items st) : st.pos ≤ items.length := by
  rcases h with ⟨hpos, hitem⟩ | ⟨hpos, -⟩
  · have := (List.getElem?_eq_some_iff.mp hitem).1
    omega
  · exact hpos.le

theorem snd_payloadReader_of_none (h : items[st.pos]? = none) :
    (payloadReader items ending st).2 = { st with nextItem := .empty } := by
  rw [payloadReader, h]

theorem snd_payloadReader_of_some {item : SnapshotItem} (h : items[st.pos]? = some item) :
    (payloadReader items ending st).2 = ⟨st.pos + 1, item⟩ := by
  rw [payloadReader, h]
  dsimp only
  cases item.getExtensionPayload <;> rfl

/-- A read keeps the position right. -/
theorem placed_payloadReader (ending : ReadError) (h : Placed items st) :
    Placed items (payloadReader items ending st).2 ∧
      st.pos ≤ (payloadReader items ending st).2.pos := by
  cases hitem : items[st.pos]? with
  | none =>
    have hle := List.getElem?_eq_none_iff.mp hitem
    have hpos := h.pos_le
    rw [snd_payloadReader_of_none hitem]
    exact ⟨.inr ⟨by dsimp only; omega, rfl⟩, le_rfl⟩
  | some item =>
    rw [snd_payloadReader_of_some hitem]
    exact ⟨.inl ⟨Nat.succ_pos _, hitem⟩, Nat.le_succ _⟩

/-- **The rule for a run of an extension**: what every read keeps, the run keeps. -/
theorem runExtension_invariant {I : RestoreState → Prop}
    (hread : ∀ st, I st → I (payloadReader items ending st).2) (h : I st)
    (hrun : runExtension items ending next bound answers st = some (result, answers', st')) :
    I st' := by
  induction bound generalizing answers st with
  | zero =>
    cases hnext : next answers with
    | none => rw [runExtension, hnext] at hrun; cases hrun
    | some r =>
      rw [runExtension_of_some hnext] at hrun
      cases hrun
      exact h
  | succ bound ih =>
    cases hnext : next answers with
    | none =>
      rw [runExtension_of_none hnext] at hrun
      exact ih (hread st h) hrun
    | some r =>
      rw [runExtension_of_some hnext] at hrun
      cases hrun
      exact h

/-- A run of an extension only goes on in the stream. -/
theorem placed_runExtension (h : Placed items st)
    (hrun : runExtension items ending next bound answers st = some (result, answers', st')) :
    Placed items st' ∧ st.pos ≤ st'.pos := by
  refine runExtension_invariant (I := fun s => Placed items s ∧ st.pos ≤ s.pos) ?_
    ⟨h, le_rfl⟩ hrun
  rintro s ⟨hplaced, hle⟩
  obtain ⟨hplaced', hle'⟩ := placed_payloadReader ending hplaced
  exact ⟨hplaced', hle.trans hle'⟩

/-- A call keeps the position right. -/
theorem Returns.placed (hcall : Returns items ending extensions height bound n st st')
    (h : Placed items st) : Placed items st' ∧ st.pos ≤ st'.pos := by
  obtain ⟨name, format, extension, answers, -, -, -, hrun⟩ := hcall
  exact placed_runExtension h hrun

/-- A call for an extension that returns is such a step. -/
theorem CallFor.returns {name : Bytes} {format : UInt32} {extension : ExtensionSnapshotter}
    (hcall : CallFor extensions st name format extension)
    (hrun : runExtension items ending (extension.restoreExtension n height format) bound [] st =
      some (none, answers, st')) : Returns items ending extensions height bound n st st' :=
  ⟨name, format, extension, answers, hcall.item_eq, hcall.lookup_eq, hcall.supported, hrun⟩

/-- **What a round does** in a restore that returns `nil`: it is the last one, or it makes a call,
behind which the restore ends if a payload is left in `nextItem`. -/
theorem restoreLoop_cases
    (h : restoreLoop items ending extensions height bound (fuel + 1) n st = some r)
    (herr : r.err = none) :
    st.nextItem = .empty ∧ r = ⟨none, [], st.pos⟩ ∨
    ∃ call st', Returns items ending extensions height bound n st st' ∧
      call.metadata = st.pos - 1 ∧ call.read = st'.pos ∧
      (st'.nextItem.getExtensionPayload ≠ none ∧ r = ⟨none, [call], st'.pos⟩ ∨
        ∃ r', restoreLoop items ending extensions height bound fuel (n + 1) st' = some r' ∧
          r'.err = none ∧ r = { r' with calls := call :: r'.calls }) := by
  by_cases hcall : ∃ name format extension, CallFor extensions st name format extension
  swap
  · push Not at hcall
    obtain ⟨err, hempty, hlast⟩ := restoreLoop_of_no_call hcall
    rw [hlast] at h
    obtain rfl := Option.some.inj h
    obtain rfl : err = none := herr
    exact .inl ⟨hempty rfl, rfl⟩
  · right
    obtain ⟨name, format, extension, hcall⟩ := hcall
    obtain ⟨result, answers, st', r', hrun, rfl, hrest⟩ := hcall.exists_of_restoreLoop h
    split at hrest
    · next hgoes =>
      obtain ⟨rfl, -⟩ := hgoes
      exact ⟨_, st', hcall.returns hrun, rfl, rfl, .inr ⟨r', hrest, herr, rfl⟩⟩
    · next hlast =>
      subst hrest
      obtain rfl : result = none := Option.map_eq_none_iff.mp herr
      exact ⟨_, st', hcall.returns hrun, rfl, rfl, .inl ⟨fun hnone => hlast ⟨rfl, hnone⟩, rfl⟩⟩

/-- The calls are made at places that were not passed yet. -/
theorem le_metadata_of_mem_calls
    (h : restoreLoop items ending extensions height bound fuel n st = some r) (herr : r.err = none)
    (hplaced : Placed items st) (hcall : call ∈ r.calls) : st.pos - 1 ≤ call.metadata := by
  induction fuel generalizing n st r with
  | zero => cases h
  | succ fuel ih =>
    rcases restoreLoop_cases h herr with
      ⟨-, rfl⟩ | ⟨first, st', hreturns, hat, -, ⟨-, rfl⟩ | ⟨r', hr', herr', rfl⟩⟩
    · cases hcall
    · rw [List.mem_singleton.mp hcall, hat]
    · obtain ⟨hplaced', hle⟩ := hreturns.placed hplaced
      rcases List.mem_cons.mp hcall with rfl | hcall
      · exact hat.ge
      · have := ih hr' herr' hplaced' hcall
        omega

theorem orderlyFrom_of_not_metadata (h : st.nextItem.getExtension = none) :
    OrderlyFrom items ending extensions height bound n st := by
  have hno : ∀ st', ¬Returns items ending extensions height bound n st st' := by
    rintro st' ⟨name, format, -, -, hitem, -⟩
    rw [hitem] at h
    cases h
  exact .intro (fun st' hcall => absurd hcall (hno st')) fun st' hcall => absurd hcall (hno st')

/-- Order from one call to the next. -/
theorem orderlyFrom_iff_of_returns (hcall : Returns items ending extensions height bound n st st') :
    OrderlyFrom items ending extensions height bound n st ↔
      Orderly items st st' ∧ OrderlyFrom items ending extensions height bound (n + 1) st' := by
  constructor
  · rintro ⟨hfirst, hrest⟩
    exact ⟨hfirst st' hcall, hrest st' hcall⟩
  · rintro ⟨hfirst, hrest⟩
    refine .intro (fun st'' h => ?_) fun st'' h => ?_
    · rwa [← hcall.unique h]
    · rwa [← hcall.unique h]

theorem Placed.isMetadata (h : Placed items st) (hmeta : st.nextItem.getExtension ≠ none) :
    0 < st.pos ∧ IsMetadata items (st.pos - 1) := by
  rcases h with ⟨hpos, hitem⟩ | ⟨-, hempty⟩
  · obtain ⟨⟨name, format⟩, hext⟩ := Option.ne_none_iff_exists'.mp hmeta
    exact ⟨hpos, name, format, by rw [hitem, SnapshotItem.getExtension_eq_some.mp hext]⟩
  · rw [hempty] at hmeta
    exact absurd rfl hmeta

theorem IsPayload.lt_length (h : IsPayload items k) : k < items.length := by
  obtain ⟨payload, hitem⟩ := h
  exact (List.getElem?_eq_some_iff.mp hitem).1

theorem IsPayload.not_isMetadata (h : IsPayload items k) : ¬IsMetadata items k := by
  rintro ⟨name, format, hitem⟩
  obtain ⟨payload, hitem'⟩ := h
  rw [hitem] at hitem'
  cases hitem'

/-- Calls at other places do not serve a metadata item. -/
theorem filter_eq_nil_of_ne (h : ∀ call ∈ calls, call.metadata ≠ i) :
    calls.filter (fun c => c.metadata = i) = [] := by
  rw [List.filter_eq_nil_iff]
  intro call hcall
  simpa using h call hcall

theorem filter_cons_of_metadata_ne (h : call.metadata ≠ i) :
    (call :: calls).filter (fun c => c.metadata = i) =
      calls.filter (fun c => c.metadata = i) := by
  rw [List.filter_cons_of_neg (by simpa using h)]

theorem filter_cons_of_metadata_eq (h : call.metadata = i) :
    (call :: calls).filter (fun c => c.metadata = i) =
      call :: calls.filter (fun c => c.metadata = i) := by
  rw [List.filter_cons_of_pos (by simpa using h)]

/-- The last call. -/
theorem servedFrom_last (hpos : 0 < st.pos) (hat : call.metadata = st.pos - 1)
    (hread : call.read = st'.pos) (hnext : st'.nextItem.getExtension = none) :
    st'.pos = items.length ∧ ServedFrom items [call] (st.pos - 1) ↔ Orderly items st st' := by
  constructor
  · rintro ⟨hall, hserved⟩
    refine .inr ⟨?_, hall, hnext⟩
    intro k hk hmeta
    obtain ⟨found, hfound, -⟩ := hserved k (by omega) hmeta
    rw [filter_eq_nil_of_ne (List.forall_mem_singleton.mpr (by omega))] at hfound
    cases hfound
  · rintro (⟨-, -, -, -, -, hne⟩ | ⟨hno, hall, -⟩)
    · exact absurd hnext hne
    · refine ⟨hall, ?_⟩
      intro i hi hmeta
      have heq : call.metadata = i := by
        by_contra hne
        exact hno i (by omega) hmeta
      refine ⟨call, filter_cons_of_metadata_eq heq, ?_⟩
      intro k _ hpayload _
      have := hpayload.lt_length
      omega

/-- A call with another one behind it. -/
theorem servedFrom_cons (hpos : 0 < st.pos) (hle : st.pos ≤ st'.pos)
    (hat : call.metadata = st.pos - 1) (hread : call.read = st'.pos)
    (hmeta' : IsMetadata items (st'.pos - 1)) (hnext : st'.nextItem.getExtension ≠ none)
    (hlater : ∀ c ∈ calls, st'.pos - 1 ≤ c.metadata)
    (hsome : ∃ c ∈ calls, c.metadata = st'.pos - 1) :
    ServedFrom items (call :: calls) (st.pos - 1) ↔
      Orderly items st st' ∧ ServedFrom items calls (st'.pos - 1) := by
  constructor
  · intro hserved
    have hlt : st.pos < st'.pos := by
      -- otherwise the metadata item has a second call
      by_contra hge
      obtain ⟨c, hc, hcat⟩ := hsome
      obtain ⟨found, hfound, -⟩ := hserved (st'.pos - 1) (by omega) hmeta'
      rw [filter_cons_of_metadata_eq (by omega), List.cons.injEq] at hfound
      have hmem : c ∈ calls.filter (fun c => c.metadata = st'.pos - 1) :=
        List.mem_filter.mpr ⟨hc, by simpa using hcat⟩
      rw [hfound.2] at hmem
      cases hmem
    constructor
    · refine .inl ⟨st'.pos - 1, by omega, hmeta', ?_, by omega, hnext⟩
      intro k hk hkj hmeta
      obtain ⟨found, hfound, -⟩ := hserved k (by omega) hmeta
      rw [filter_cons_of_metadata_ne (by omega), filter_eq_nil_of_ne] at hfound
      · cases hfound
      · intro c hc
        have := hlater c hc
        omega
    · intro i hi hmeta
      obtain ⟨found, hfound, hreads⟩ := hserved i (by omega) hmeta
      rw [filter_cons_of_metadata_ne (by omega)] at hfound
      exact ⟨found, hfound, hreads⟩
  · rintro ⟨⟨j, hj, hmetaj, hno, hposj, -⟩ | ⟨-, -, hnone⟩, hserved⟩
    · intro i hi hmeta
      by_cases hfirst : call.metadata = i
      · refine ⟨call, ?_, ?_⟩
        · rw [filter_cons_of_metadata_eq hfirst, filter_eq_nil_of_ne]
          intro c hc
          have := hlater c hc
          omega
        · intro k hik hpayload hbetween
          have hkj : k < j := by
            rcases lt_trichotomy k j with h | rfl | h
            · exact h
            · exact absurd hmetaj hpayload.not_isMetadata
            · exact absurd hmetaj (hbetween j (by omega) h)
          omega
      · have hij : j ≤ i := by
          by_contra hlt
          exact hno i (by omega) (by omega) hmeta
        obtain ⟨found, hfound, hreads⟩ := hserved i (by omega) hmeta
        exact ⟨found, by rw [filter_cons_of_metadata_ne hfirst, hfound], hreads⟩
    · exact absurd hnone hnext

section

variable (h : restoreLoop items ending extensions height bound fuel n st = some r)
  (herr : r.err = none)
include h herr

/-- A restore that goes on from a metadata item makes a call for it. -/
theorem exists_call_of_metadata : st.nextItem = .empty ∧ r = ⟨none, [], st.pos⟩ ∨
      st.nextItem.getExtension ≠ none ∧ ∃ c ∈ r.calls, c.metadata = st.pos - 1 := by
  cases fuel with
  | zero => cases h
  | succ fuel =>
    rcases restoreLoop_cases h herr with hlast | ⟨call, st', hreturns, hat, -, hrest⟩
    · exact .inl hlast
    · right
      refine ⟨?_, ?_⟩
      · obtain ⟨name, format, -, -, hitem, -⟩ := hreturns
        rw [hitem]
        exact Option.some_ne_none _
      · rcases hrest with ⟨-, rfl⟩ | ⟨r', -, -, rfl⟩
        · exact ⟨call, List.mem_singleton_self call, hat⟩
        · exact ⟨call, List.mem_cons_self, hat⟩

/-- All items are read exactly if the calls come in order. -/
theorem consumed_iff_from (hplaced : Placed items st) (hmeta : st.nextItem.getExtension ≠ none) :
    r.read = items.length ∧ ServedFrom items r.calls (st.pos - 1) ↔
      OrderlyFrom items ending extensions height bound n st := by
  induction fuel generalizing n st r with
  | zero => cases h
  | succ fuel ih =>
    obtain ⟨hpos, -⟩ := hplaced.isMetadata hmeta
    rcases restoreLoop_cases h herr with
      ⟨hempty, -⟩ | ⟨call, st', hreturns, hat, hread, ⟨hpayload, rfl⟩ | ⟨r', hr', herr', rfl⟩⟩
    · rw [hempty] at hmeta
      exact absurd rfl hmeta
    · have hnext : st'.nextItem.getExtension = none := by
        cases hitem : st'.nextItem with
        | extensionPayload payload => rfl
        | _ => rw [hitem] at hpayload; exact absurd rfl hpayload
      rw [orderlyFrom_iff_of_returns hreturns, and_iff_left (orderlyFrom_of_not_metadata hnext)]
      exact servedFrom_last hpos hat hread hnext
    · obtain ⟨hplaced', hle⟩ := hreturns.placed hplaced
      rw [orderlyFrom_iff_of_returns hreturns]
      rcases exists_call_of_metadata hr' herr' with ⟨hempty, rfl⟩ | ⟨hnext, hsome⟩
      · have hnext : st'.nextItem.getExtension = none := by rw [hempty]; rfl
        rw [and_iff_left (orderlyFrom_of_not_metadata hnext)]
        exact servedFrom_last hpos hat hread hnext
      · have hcons := servedFrom_cons hpos hle hat hread (hplaced'.isMetadata hnext).2 hnext
          (fun c hc => le_metadata_of_mem_calls hr' herr' hplaced' hc) hsome
        rw [← ih hr' herr' hplaced' hnext, hcons]
        exact and_left_comm

end

end Consumed

/-- **A restore that returns `nil` has consumed the whole snapshot**, exactly if no item that is
empty comes first, with others behind it, and every call of `RestoreExtension` that is made and
returns `nil` reads its part of the stream. -/
theorem consumed_iff {opened : Except RestoreError Unit} {multistore : Snapshotter}
    {extensions : Extensions} {height : UInt64} {format : UInt32} {stream items : List SnapshotItem}
    {ending : ReadError} {fuel bound : ℕ} {r : Restored}
    (hmultistore : multistore.restore height format stream = .ok items)
    (h : doRestoreSnapshot opened multistore extensions height format stream ending fuel bound =
      some r) (hnil : r.err = none) :
    Consumed items r ↔ (items.head? = some .empty → items.length = 1) ∧
      OrderlyFrom items ending extensions height bound 0 (firstItem items) := by
  have hloop : restoreLoop items ending extensions height bound fuel 0 (firstItem items) =
      some r := by
    cases opened with
    | error e => cases h; cases hnil
    | ok u => rwa [doRestoreSnapshot, hmultistore] at h
  cases items with
  | nil =>
    rcases exists_call_of_metadata hloop hnil with ⟨-, rfl⟩ | ⟨hmeta, -⟩
    · have hserved : Consumed [] ⟨none, [], (firstItem []).pos⟩ :=
        ⟨rfl, fun i _ ⟨_, _, hitem⟩ => absurd hitem (by simp)⟩
      exact iff_of_true hserved ⟨fun hhead => absurd hhead (by simp),
        orderlyFrom_of_not_metadata rfl⟩
    · exact absurd rfl hmeta
  | cons item items =>
    have hplaced : Placed (item :: items) (firstItem (item :: items)) := .inl ⟨Nat.one_pos, rfl⟩
    rcases exists_call_of_metadata hloop hnil with ⟨hempty, rfl⟩ | ⟨hmeta, -⟩
    · obtain rfl : item = .empty := hempty
      rw [and_iff_left (orderlyFrom_of_not_metadata rfl)]
      constructor
      · intro hconsumed _
        exact hconsumed.all.symm
      · intro hlast
        have hone := hlast rfl
        obtain rfl : items = [] := List.length_eq_zero_iff.mp (by simpa using hone)
        refine ⟨rfl, ?_⟩
        rintro i - ⟨name, format, hitem⟩
        cases i with
        | zero => cases hitem
        | succ i => cases hitem
    · have hfrom := consumed_iff_from hloop hnil hplaced hmeta
      rw [← hfrom]
      constructor
      · rintro ⟨hall, heach⟩
        refine ⟨?_, hall, heach⟩
        intro hhead
        obtain rfl : item = .empty := Option.some.inj hhead
        exact absurd rfl hmeta
      · rintro ⟨-, hall, heach⟩
        exact ⟨hall, heach⟩

/-- An extension that reads up to `n` times, and no more after an error. -/
def readingExtension (n : ℕ) : ExtensionSnapshotter where
  snapshotFormat := 1
  supportedFormats := [1]
  snapshotExtension _ := ([], none)
  restoreExtension _ _ _ answers :=
    if answers.length < n ∧ answers.all (fun answer => answer.toBool) then none else some none

/-- A multistore without items. -/
def emptyMultistore : Snapshotter where
  snapshot _ := ([], none)
  restore _ _ items := .ok items

/-- The restore of an extension with two payloads that reads up to `n` times. -/
def restoreTwoPayloads (n : ℕ) : Option Restored :=
  doRestoreSnapshot (.ok ()) emptyMultistore ((∅ : Extensions).insert [97] (readingExtension n)) 7 3
    [.extension [97] 1, .extensionPayload [1], .extensionPayload [2]] .eof 5 5

/-- An extension that reads until `io.EOF`. -/
theorem consumed_iff_of_exhausted : ∃ r, restoreTwoPayloads 3 = some r ∧
    (Consumed [.extension [97] 1, .extensionPayload [1], .extensionPayload [2]] r ↔
      ([SnapshotItem.extension [97] 1, .extensionPayload [1], .extensionPayload [2]].head? =
          some .empty → 3 = 1) ∧
        OrderlyFrom [.extension [97] 1, .extensionPayload [1], .extensionPayload [2]] .eof
          ((∅ : Extensions).insert [97] (readingExtension 3)) 7 5 0 ⟨1, .extension [97] 1⟩) :=
  ⟨_, rfl, @consumed_iff (.ok ()) emptyMultistore _ 7 3 _ _ .eof 5 5 _ rfl rfl rfl⟩

/-- **An extension that stops early**: it reads the first of its two payloads. The restore returns
`nil`, and the second payload was not read. -/
theorem consumed_fails : ∃ r, restoreTwoPayloads 1 = some r ∧ r.err = none ∧
    ¬Consumed [.extension [97] 1, .extensionPayload [1], .extensionPayload [2]] r := by
  refine ⟨_, rfl, rfl, ?_⟩
  intro hconsumed
  exact absurd hconsumed.all (by decide)

end MelodiaStore
