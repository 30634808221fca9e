import MelodiaStore.Extensions

/-!
# Nodes in a Snapshot

`Snapshot` and `Restore` of `rootmulti/store.go`. `Snapshot` writes the nodes that an IAVL tree
exports, each as an item; the height of a node has 8 bits, and 32 bits in an item. `Restore` makes
nodes of the items again and hands them to an importer. The items come from other peers: their
heights are any numbers of 32 bits, and `Restore` refuses those above 127 before it narrows them.

`Store.Import` does nothing in this repository, and IAVL is not a part of it; the importers are
taken to be given, and may refuse a node. Protobuf does not write a field without bytes, and a
field that is not written is read as `nil`.

## Main results

* `nodeItems_exact`: a node that is handed on is the one its item stands for exactly if the height
  of the item is not below -128, and no value comes with an inner node.
-/

namespace MelodiaStore

/-! ### Nodes and items -/

/-- `iavltree.ExportNode`. -/
structure ExportNode where
  key : Slice
  value : Slice
  height : Int8
  version : Int64
  deriving DecidableEq

/-- A node that IAVL exports: it has a key, and a value exactly if it is a leaf. -/
structure ExportNode.WellFormed (node : ExportNode) : Prop where
  key_ne : node.key ≠ none
  value_ne_iff : node.value ≠ none ↔ node.height = 0

/-- `types.SnapshotIAVLItem`. -/
structure SnapshotIAVLItem where
  key : Slice
  value : Slice
  version : Int64
  height : Int32
  deriving DecidableEq

/-- The item that `Snapshot` writes for a node. -/
def ExportNode.toItem (node : ExportNode) : SnapshotIAVLItem where
  key := node.key
  value := node.value
  version := node.version
  height := node.height.toInt32

/-- A field of bytes that was written and read by protobuf. -/
def wireBytes (bz : Slice) : Slice := if bz.getD [] = [] then none else bz

/-- An item that was written and read by protobuf. -/
def SnapshotIAVLItem.wire (item : SnapshotIAVLItem) : SnapshotIAVLItem :=
  { item with key := wireBytes item.key, value := wireBytes item.value }

/-- The errors of `Restore`. -/
inductive NodeRestoreError
  /-- invalid protobuf message -/
  | invalidMessage (e : ReadError)
  /-- IAVL commit failed -/
  | commitFailed (e : String)
  /-- `ErrLogic`: cannot import into non-IAVL store -/
  | notIavl (name : Bytes)
  /-- import failed -/
  | importFailed (e : String)
  /-- `ErrLogic`: received IAVL node item before store item -/
  | beforeStore
  /-- `ErrLogic`: node height cannot exceed 127 -/
  | heightExceeds (height : Int32)
  /-- IAVL node import failed -/
  | nodeImport (e : String)
  /-- an error of `LoadLatestVersion` -/
  | load (e : String)
  deriving DecidableEq

/-- The node that `Restore` makes of an item. -/
def importNode (item : SnapshotIAVLItem) : Except NodeRestoreError ExportNode :=
  if item.height > 127 then .error (.heightExceeds item.height)
  else
    let node : ExportNode := ⟨item.key, item.value, item.height.toInt8, item.version⟩
    let node := if node.key = none then { node with key := some [] } else node
    let node := if node.height = 0 ∧ node.value = none then { node with value := some [] } else node
    .ok node

/-! ### Restoring -/

/-- An item of the stream, as `Restore` tells them apart. -/
inductive NodeStreamItem
  | store (name : Bytes)
  | iavl (item : SnapshotIAVLItem)
  | other (item : SnapshotItem)

/-- What `Restore` calls: `Store.Import` of the store with a name, if it is an IAVL store, `Add` and
`Commit` of an importer, and `LoadLatestVersion` at the end. -/
structure ImportEnv (ι : Type) where
  importInto : Bytes → Option (Except String ι)
  add : ι → ExportNode → Except String ι
  commit : ι → Option String
  loadLatestVersion : Option String

/-- What `Restore` returns, and the calls of `Add` it made, each with the item it was for. -/
structure RestoredNodes where
  next : SnapshotItem
  err : Option NodeRestoreError
  added : List (SnapshotIAVLItem × ExportNode)

section Restore

variable {ι : Type} (env : ImportEnv ι)

/-- The commit of the importer, if there is one. -/
def commitImporter (importer : Option ι) : Option NodeRestoreError :=
  (importer.bind env.commit).map .commitFailed

/-- What `Restore` does behind its loop. -/
def finishRestore (next : SnapshotItem) (importer : Option ι) : RestoredNodes :=
  match commitImporter env importer with
  | some e => ⟨.empty, some e, []⟩
  | none => ⟨next, env.loadLatestVersion.map .load, []⟩

/-- The loop of `Restore`. -/
def restoreNodes (ending : ReadError) : List NodeStreamItem → Option ι → RestoredNodes
  | [], importer =>
    if ending = .eof then finishRestore env .empty importer
    else ⟨.empty, some (.invalidMessage ending), []⟩
  | .other item :: _, importer => finishRestore env item importer
  | .store name :: items, importer =>
    match commitImporter env importer with
    | some e => ⟨.empty, some e, []⟩
    | none =>
      match env.importInto name with
      | none => ⟨.empty, some (.notIavl name), []⟩
      | some (.error e) => ⟨.empty, some (.importFailed e), []⟩
      | some (.ok importer) => restoreNodes ending items (some importer)
  | .iavl item :: items, importer =>
    match importer with
    | none => ⟨.empty, some .beforeStore, []⟩
    | some importer =>
      match importNode item with
      | .error e => ⟨.empty, some e, []⟩
      | .ok node =>
        match env.add importer node with
        | .error e => ⟨.empty, some (.nodeImport e), [(item, node)]⟩
        | .ok importer =>
          let rest := restoreNodes ending items (some importer)
          { rest with added := (item, node) :: rest.added }

end Restore

/-- The items of the stores, as `Snapshot` writes them. -/
def snapshotItems (stores : List (Bytes × List ExportNode)) : List NodeStreamItem :=
  stores.flatMap fun store =>
    .store store.1 :: store.2.map fun node => .iavl node.toItem.wire

/-! ### The item of a node -/

variable {item : SnapshotIAVLItem} {node : ExportNode}

theorem wireBytes_eq_none_iff {bz : Slice} : wireBytes bz = none ↔ bz.getD [] = [] := by
  rw [wireBytes]
  split_ifs with h
  · simp [h]
  · refine iff_of_false ?_ h
    rintro rfl
    exact h rfl

theorem wireBytes_some_getD (bz : Slice) : wireBytes (some (bz.getD [])) = wireBytes bz := by
  cases bz <;> rfl

/-- What is set to empty bytes when it is `nil` is what it was. -/
theorem getD_wireBytes (bz : Slice) : (wireBytes bz).getD [] = bz.getD [] := by
  rw [wireBytes]
  split_ifs with h
  · exact h.symm
  · rfl

theorem height_le_iff : ¬ item.height > 127 ↔ item.height.toInt ≤ 127 := by
  have hmax : (127 : Int32).toInt = 127 := rfl
  rw [gt_iff_lt, Int32.lt_iff_toInt_lt, hmax, not_lt]

/-- The node of an item that is not refused: its key is set, and the value of a leaf. -/
theorem importNode_of_le (h : item.height.toInt ≤ 127) :
    importNode item = .ok
      { key := some (item.key.getD [])
        value := if item.height.toInt8 = 0 then some (item.value.getD []) else item.value
        height := item.height.toInt8
        version := item.version } := by
  obtain ⟨key, value, version, height⟩ := item
  rw [importNode, if_neg (height_le_iff.mpr h)]
  by_cases hleaf : height.toInt8 = 0
  · cases key <;> cases value <;> simp [hleaf]
  · cases key <;> simp [hleaf]

/-- A higher node is not imported. -/
theorem le_of_importNode (h : importNode item = .ok node) : item.height.toInt ≤ 127 := by
  by_contra hgt
  rw [importNode, if_pos (not_not.mp (mt height_le_iff.mp hgt))] at h
  cases h

/-- Narrowing keeps the heights of 8 bits, and no others. -/
theorem toInt_toInt8_iff {height : Int32} (hle : height.toInt ≤ 127) :
    height.toInt8.toInt = height.toInt ↔ -128 ≤ height.toInt := by
  rw [Int32.toInt_toInt8, Int.bmod_def]
  omega

/-- **The item of a node becomes the node again.** -/
theorem importNode_toItem (h : node.WellFormed) : importNode node.toItem.wire = .ok node := by
  have hle : node.toItem.wire.height.toInt ≤ 127 := by
    have hlt := node.height.toInt_lt
    change node.height.toInt32.toInt ≤ 127
    rw [Int8.toInt_toInt32]
    omega
  have hheight : node.toItem.wire.height.toInt8 = node.height := Int8.toInt8_toInt32 _
  obtain ⟨k, hk⟩ := Option.ne_none_iff_exists'.mp h.key_ne
  rw [importNode_of_le hle, hheight]
  obtain ⟨key, value, height, version⟩ := node
  obtain rfl : key = some k := hk
  have hkey : (wireBytes (some k)).getD [] = k := getD_wireBytes (some k)
  have hvalue : (if height = 0 then some ((wireBytes value).getD []) else wireBytes value) =
      value := by
    split_ifs with hleaf
    · obtain ⟨v, rfl⟩ := Option.ne_none_iff_exists'.mp (h.value_ne_iff.mpr hleaf)
      rw [getD_wireBytes]
      rfl
    · obtain rfl : value = none := not_not.mp (mt h.value_ne_iff.mp hleaf)
      rfl
  simp only [ExportNode.toItem, SnapshotIAVLItem.wire, hkey, hvalue]

/-- An item that `Snapshot` may have written. -/
def SnapshotIAVLItem.IsWritten (item : SnapshotIAVLItem) : Prop :=
  ∃ node : ExportNode, node.WellFormed ∧ node.toItem.wire = item.wire

/-- The items that `Snapshot` may have written have a height of 8 bits, and a value only for a
leaf. -/
theorem isWritten_iff (hle : item.height.toInt ≤ 127) :
    item.IsWritten ↔
      -128 ≤ item.height.toInt ∧ (item.height = 0 ∨ item.value.getD [] = []) := by
  constructor
  · rintro ⟨node, hnode, heq⟩
    have hheight : node.height.toInt32 = item.height := congrArg SnapshotIAVLItem.height heq
    have hvalue : wireBytes node.value = wireBytes item.value :=
      congrArg SnapshotIAVLItem.value heq
    refine ⟨?_, ?_⟩
    · rw [← hheight, Int8.toInt_toInt32]
      exact node.height.le_toInt
    · by_cases hleaf : node.height = 0
      · left
        rw [← hheight, hleaf]
        rfl
      · right
        have hnone : node.value = none := not_not.mp (mt hnode.value_ne_iff.mp hleaf)
        rw [hnone] at hvalue
        exact wireBytes_eq_none_iff.mp hvalue.symm
  · rintro ⟨hge, hvalue⟩
    have hheight : item.height.toInt8.toInt32 = item.height := by
      rw [← Int32.toInt_inj, Int8.toInt_toInt32, toInt_toInt8_iff hle]
      exact hge
    have hleaf : item.height.toInt8 = 0 ↔ item.height = 0 := by
      constructor
      · intro h
        rw [← hheight, h]
        rfl
      · intro h
        rw [h]
        rfl
    refine ⟨⟨some (item.key.getD []), if item.height = 0 then some (item.value.getD []) else none,
      item.height.toInt8, item.version⟩, ⟨Option.some_ne_none _, ?_⟩, ?_⟩
    · dsimp only
      rw [hleaf]
      split_ifs with h <;> simp [h]
    · have hvalues : wireBytes (if item.height = 0 then some (item.value.getD []) else none) =
          wireBytes item.value := by
        split_ifs with h
        · exact wireBytes_some_getD item.value
        · exact (wireBytes_eq_none_iff.mpr (hvalue.resolve_left h)).symm
      simp only [ExportNode.toItem, SnapshotIAVLItem.wire, wireBytes_some_getD, hvalues, hheight]

/-! ### Whole streams -/

section Streams

variable {ι : Type} {env : ImportEnv ι} {names : List Bytes}

/-- The importers of some stores do not fail. -/
structure ImportEnv.Working (env : ImportEnv ι) (names : List Bytes) : Prop where
  importInto_eq : ∀ name ∈ names, ∃ importer, env.importInto name = some (.ok importer)
  add_eq : ∀ importer node, ∃ importer', env.add importer node = .ok importer'
  commit_eq : ∀ importer, env.commit importer = none

/-- A commit of the importer works. -/
theorem commitImporter_eq_none (h : env.Working names) (importer : Option ι) :
    commitImporter env importer = none := by
  cases importer with
  | none => rfl
  | some importer => rw [commitImporter, Option.bind_some, h.commit_eq, Option.map_none]

/-- The nodes of a store are handed on, one after the other, before what comes behind them. -/
theorem added_nodes (hwork : env.Working names) {nodes : List ExportNode}
    (hnodes : ∀ node ∈ nodes, node.WellFormed) (ending : ReadError) (items : List NodeStreamItem)
    (importer : ι) :
    ∃ importer', restoreNodes env ending
        ((nodes.map fun node => .iavl node.toItem.wire) ++ items) (some importer) =
      let rest := restoreNodes env ending items (some importer')
      { rest with added := (nodes.map fun node => (node.toItem.wire, node)) ++ rest.added } := by
  induction nodes generalizing importer with
  | nil => exact ⟨importer, rfl⟩
  | cons node nodes ih =>
    obtain ⟨hnode, hrest⟩ := List.forall_mem_cons.mp hnodes
    obtain ⟨importer₁, hadd⟩ := hwork.add_eq importer node
    obtain ⟨importer', hrun⟩ := ih hrest importer₁
    refine ⟨importer', ?_⟩
    rw [List.map_cons, List.cons_append, restoreNodes, importNode_toItem hnode]
    dsimp only
    rw [hadd]
    dsimp only
    rw [hrun]
    rfl

/-- **A snapshot is restored node by node**: the nodes that are handed on are those of the stores,
in their order. -/
theorem restoreNodes_snapshotItems {stores : List (Bytes × List ExportNode)}
    (hnodes : ∀ store ∈ stores, ∀ node ∈ store.2, node.WellFormed)
    (hwork : env.Working (stores.map Prod.fst)) (importer : Option ι) :
    restoreNodes env .eof (snapshotItems stores) importer =
      { next := .empty
        err := env.loadLatestVersion.map .load
        added := (stores.flatMap Prod.snd).map fun node => (node.toItem.wire, node) } := by
  have hcommit := commitImporter_eq_none hwork
  induction stores generalizing importer with
  | nil =>
    change restoreNodes env .eof [] importer = _
    rw [restoreNodes, if_pos rfl, finishRestore, hcommit]
    rfl
  | cons store stores ih =>
    obtain ⟨hstore, hrest⟩ := List.forall_mem_cons.mp hnodes
    have hwork' : env.Working (stores.map Prod.fst) :=
      ⟨fun name hname => hwork.importInto_eq name (List.mem_cons_of_mem _ hname), hwork.add_eq,
        hwork.commit_eq⟩
    obtain ⟨importer₁, himport⟩ := hwork.importInto_eq store.1 List.mem_cons_self
    obtain ⟨importer', hrun⟩ := added_nodes hwork hstore .eof (snapshotItems stores) importer₁
    have hitems : snapshotItems (store :: stores) = .store store.1 ::
        ((store.2.map fun node => .iavl node.toItem.wire) ++ snapshotItems stores) := rfl
    rw [hitems, restoreNodes, hcommit]
    dsimp only
    rw [himport]
    dsimp only
    rw [hrun, ih hrest hwork' (some importer'), List.flatMap_cons, List.map_append]

theorem added_finishRestore (next : SnapshotItem) (importer : Option ι) :
    (finishRestore env next importer).added = [] := by
  rw [finishRestore]
  cases commitImporter env importer <;> rfl

/-- **The nodes that are handed on** are made of items of the stream. -/
theorem mem_added {ending : ReadError} {items : List NodeStreamItem} {importer : Option ι}
    {e : SnapshotIAVLItem × ExportNode} (h : e ∈ (restoreNodes env ending items importer).added) :
    .iavl e.1 ∈ items ∧ importNode e.1 = .ok e.2 := by
  fun_induction restoreNodes env ending items importer with
  | case1 | case3 =>
    rw [added_finishRestore] at h
    exact absurd h List.not_mem_nil
  | case2 | case4 | case5 | case6 | case8 | case9 => exact absurd h List.not_mem_nil
  | case7 _ _ _ _ _ _ ih =>
    obtain ⟨hmem, hnode⟩ := ih h
    exact ⟨List.mem_cons_of_mem _ hmem, hnode⟩
  | case10 item _ _ node hnode _ _ =>
    obtain rfl := List.mem_singleton.mp h
    exact ⟨List.mem_cons_self, hnode⟩
  | case11 item _ _ node hnode _ _ _ ih =>
    rcases List.mem_cons.mp h with rfl | h
    · exact ⟨List.mem_cons_self, hnode⟩
    · obtain ⟨hmem, hnode⟩ := ih h
      exact ⟨List.mem_cons_of_mem _ hmem, hnode⟩

end Streams

/-- **When a node is the one its item stands for.** A snapshot is restored node by node, where the
importers work. And in every restore, whatever the stream is, a node that is handed to an importer
has the height and the version of its item, and the item is one that `Snapshot` may have written,
if and only if the height of the item is at least -128, and it has no value unless its height
is 0. -/
theorem nodeItems_exact {ι : Type} (env : ImportEnv ι) :
    (∀ stores : List (Bytes × List ExportNode),
      (∀ store ∈ stores, ∀ node ∈ store.2, node.WellFormed) →
      env.Working (stores.map Prod.fst) →
      restoreNodes env .eof (snapshotItems stores) none =
        { next := .empty
          err := env.loadLatestVersion.map .load
          added := (stores.flatMap Prod.snd).map fun node => (node.toItem.wire, node) }) ∧
    ∀ ending items importer, ∀ e ∈ (restoreNodes env ending items importer).added,
      .iavl e.1 ∈ items ∧
      ((e.2.height.toInt = e.1.height.toInt ∧ e.2.version = e.1.version ∧ e.1.IsWritten) ↔
        -128 ≤ e.1.height.toInt ∧ (e.1.height = 0 ∨ e.1.value.getD [] = [])) := by
  refine ⟨fun stores hnodes hwork => ?_, fun ending items importer e he => ?_⟩
  · exact restoreNodes_snapshotItems hnodes hwork none
  · obtain ⟨hmem, hnode⟩ := mem_added he
    have hle := le_of_importNode hnode
    rw [importNode_of_le hle] at hnode
    have hfields := Except.ok.inj hnode
    refine ⟨hmem, ?_⟩
    rw [← hfields, toInt_toInt8_iff hle, isWritten_iff hle]
    exact ⟨fun h => h.2.2, fun h => ⟨h.1, rfl, h⟩⟩

/-- Importers that take every node. -/
def acceptingEnv : ImportEnv Unit where
  importInto _ := some (.ok ())
  add _ _ := .ok ()
  commit _ := none
  loadLatestVersion := none

/-- A leaf and an inner node of one store are restored, and an item of the height -128 keeps it. -/
theorem nodeItems_exact_of_two :
    restoreNodes acceptingEnv .eof
        (snapshotItems [([97], [⟨some [1], some [], 0, 7⟩, ⟨some [1], none, 1, 7⟩])]) none =
      ⟨.empty, none, [(⟨some [1], none, 7, 0⟩, ⟨some [1], some [], 0, 7⟩),
        (⟨some [1], none, 7, 1⟩, ⟨some [1], none, 1, 7⟩)]⟩ ∧
    SnapshotIAVLItem.IsWritten ⟨some [1], none, 7, -128⟩ := by
  obtain ⟨hstores, hitems⟩ := nodeItems_exact acceptingEnv
  refine ⟨hstores [([97], [⟨some [1], some [], 0, 7⟩, ⟨some [1], none, 1, 7⟩])] ?_ ?_, ?_⟩
  · intro store hstore node hnode
    obtain rfl := List.mem_singleton.mp hstore
    rcases List.mem_cons.mp hnode with rfl | hnode
    · exact ⟨by decide, by decide⟩
    · obtain rfl := List.mem_singleton.mp hnode
      exact ⟨by decide, by decide⟩
  · exact ⟨fun _ _ => ⟨(), rfl⟩, fun _ _ => ⟨(), rfl⟩, fun _ => rfl⟩
  · have h := hitems .eof [.store [97], .iavl ⟨some [1], none, 7, -128⟩] none
      (⟨some [1], none, 7, -128⟩, ⟨some [1], none, -128, 7⟩) (by decide)
    exact (h.2.mpr ⟨by decide, .inr rfl⟩).2.2

/-- **A height below -128 is not refused**: the item has the height -200, and the node that is
handed on the height 56. -/
theorem node_height_wraps :
    (restoreNodes acceptingEnv .eof
        [.store [97], .iavl ⟨some [1], none, 7, -200⟩] none).added =
      [(⟨some [1], none, 7, -200⟩, ⟨some [1], none, 56, 7⟩)] ∧
    (56 : Int8).toInt ≠ (-200 : Int32).toInt := by decide

end MelodiaStore
