import LainLang.Lib.Effect
import LainLang.Lib.OrdMap
import LainLang.Lib.Run
import Mathlib.Logic.Relation
/-!
# Listeners of the database

What listens to the database for a cell or a propagator is turned on by the listener
manager of that object and turned off when the object is disposed of. Objects come and
go in any order; no listener of an object outlives it, but for the one an instance sets
on the node of its cell, which no manager knows.
-/
open LainLang.Lib

namespace LainLang.Serialize.GunListeners

/-! ## Listener managers -/

/-- A node by the way that leads to it. -/
inductive GunNode where
  | gun
  | get (node : GunNode) (key : String)
  | map (node : GunNode)
  deriving DecidableEq

/-- A listener, or the one that `registerMapListener` of a manager wraps it in. Each is a
function of its own, told apart by a number. -/
inductive GunListener where
  | plain (listener : ℕ)
  | wrapped (manager listener : ℕ)
  deriving DecidableEq

/-- The listener behind a handle. -/
def GunListener.id : GunListener → ℕ
  | .plain listener => listener
  | .wrapped _ listener => listener

/-- `{ node, listener }`. -/
structure ListenerHandle where
  node : GunNode
  listener : GunListener
  key : Option String
  deriving DecidableEq

/-- The key, if there is one that is not the empty string. -/
def ListenerHandle.given (handle : ListenerHandle) : Option String := handle.key.filter (· ≠ "")

/-- The node that the listener is turned on at. -/
def ListenerHandle.target (handle : ListenerHandle) : GunNode :=
  match handle.given with
  | some key => handle.node.get key
  | none => handle.node

structure GunListenerManager where
  listeners : List ListenerHandle
  keyListeners : OrdMap String ListenerHandle
  disposed : Bool

/-- `new GunListenerManager()`. -/
def GunListenerManager.new : GunListenerManager := { listeners := [], keyListeners := .empty, disposed := false }

/-- What is done to the database, by which manager, and the listeners that ran. -/
inductive ListenerEffect where
  | on (owner : Option ℕ) (node : GunNode) (listener : GunListener)
  | off (manager : ℕ) (node : GunNode) (listener : GunListener)
  | ran (listener : GunListener)
  deriving DecidableEq

/-- Managers are told apart by their place in the list, objects and listeners by numbers;
`next` was given to none yet. -/
structure GunWorld where
  next : ℕ
  managers : List GunListenerManager
  listenerManagers : OrdMap ℕ ℕ
  effects : List ListenerEffect

/-- Nothing was created yet. -/
def emptyWorld : GunWorld := { next := 0, managers := [], listenerManagers := .empty, effects := [] }

/-- Code that creates and disposes of listeners, and may throw. -/
abbrev Gun := EStateM String GunWorld

/-- The manager at an index. -/
def GunWorld.manager (w : GunWorld) (m : ℕ) : GunListenerManager := w.managers[m]?.getD .new

/-- Effects are recorded in their order. -/
def GunWorld.emit (w : GunWorld) (effects : List ListenerEffect) : GunWorld := { w with effects := w.effects ++ effects }

/-- A number that was not given yet. -/
def fresh : Gun ℕ := do
  let w ← get
  modify fun w => { w with next := w.next + 1 }
  return w.next

/-- The handle is filed, under its key as well, and its listener turned on. -/
def GunWorld.hold (w : GunWorld) (m : ℕ) (handle : ListenerHandle) : GunWorld :=
  GunWorld.emit
    { w with managers := w.managers.modify m fun manager => { manager with
        listeners := manager.listeners ++ [handle]
        keyListeners := handle.given.elim manager.keyListeners fun key => manager.keyListeners.set key handle } }
    [.on (some m) handle.target handle.listener]

/-- `register`: the handle is kept, and filed under the key when there is one. -/
def register (m : ℕ) (node : GunNode) (listener : GunListener) (key : Option String) : Gun Unit := do
  let w ← get
  if (w.manager m).disposed then throw "Cannot register listener on disposed manager"
  else modify (·.hold m { node, listener, key })

/-- `registerMapListener`: no key. -/
def registerMapListener (m : ℕ) (mapNode : GunNode) (listener : ℕ) : Gun Unit := do
  let w ← get
  if (w.manager m).disposed then throw "Cannot register listener on disposed manager"
  else modify (·.hold m { node := mapNode.map, listener := .wrapped m listener, key := none })

/-- The listener filed under the key is turned off; its handle stays in the list. -/
def GunWorld.closeKeyListener (w : GunWorld) (m : ℕ) (key : String) : GunWorld :=
  match (w.manager m).keyListeners.get? key with
  | some handle =>
    GunWorld.emit
      { w with managers := w.managers.modify m fun manager => { manager with
          keyListeners := manager.keyListeners.delete key } }
      [.off m (handle.node.get key) handle.listener]
  | none => w

/-- Everything is turned off, what has a key twice. -/
def GunWorld.dispose (w : GunWorld) (m : ℕ) : GunWorld :=
  if (w.manager m).disposed then w
  else
    let manager := w.manager m
    GunWorld.emit
      { w with managers := w.managers.modify m fun _ => { listeners := [], keyListeners := .empty, disposed := true } }
      (manager.listeners.map (fun handle => .off m handle.target handle.listener) ++
        manager.keyListeners.entries.map fun entry => .off m (entry.2.node.get entry.1) entry.2.listener)

/-- The manager of the object, or a new one. -/
def getListenerManager (object : ℕ) : Gun ℕ := do
  let w ← get
  match w.listenerManagers.get? object with
  | some m => return m
  | none =>
    modify fun w => { w with
      managers := w.managers ++ [.new]
      listenerManagers := w.listenerManagers.set object w.managers.length }
    return w.managers.length

/-- `disposeListeners`: the manager is forgotten as well. -/
def GunWorld.disposeListeners (w : GunWorld) (object : ℕ) : GunWorld :=
  match w.listenerManagers.get? object with
  | some m => { w.dispose m with listenerManagers := w.listenerManagers.delete object }
  | none => w

/-! ## Cells in the database -/

/-- `gun_state`: a name and its node. -/
structure GunState where
  name : String
  node : GunNode

/-- The root of all states. -/
def create_root_state : GunState := { name := "root", node := .gun }

/-- The parent is taken for the root by its name. -/
def gun_state (parent : GunState) (name : String) : GunState where
  name := name
  node := if parent.name = "root" then GunNode.gun.get name else parent.node.get name

/-- The nodes of a cell that are listened to. -/
structure GunCellStateNodes where
  contentNode : GunNode
  neighborsNode : GunNode
  strongestNode : GunNode

/-- The nodes under the state of the cell, or directly under `gun`. -/
def create_state_nodes (id : String) (useGunState : Bool) : Gun GunCellStateNodes :=
  if useGunState then do
    let cellState := gun_state create_root_state id
    let listener ← fresh
    modify (·.emit [.on none cellState.node (.plain listener)])
    return {
      contentNode := (gun_state cellState "content").node
      neighborsNode := (gun_state cellState "neighbors").node
      strongestNode := (gun_state cellState "cell_strongest").node }
  else
    return {
      contentNode := (GunNode.gun.get id).get "content"
      neighborsNode := (GunNode.gun.get id).get "neighbors"
      strongestNode := (GunNode.gun.get id).get "cell_strongest" }

/-- One listener on the strongest value. -/
def setup_strongest_listener (strongestNode : GunNode) (cell : ℕ) : Gun Unit := do
  let manager ← getListenerManager cell
  let listener ← fresh
  register manager strongestNode (.plain listener) none

/-- What `setup_content_listener`, `setup_neighbors_listener` and `setup_computation` do
with their listener. -/
def setup_map_listener (node : GunNode) (cell : ℕ) : Gun Unit := do
  let manager ← getListenerManager cell
  let listener ← fresh
  registerMapListener manager node listener

/-- A map listener on the content. -/
def setup_content_listener (contentNode : GunNode) (cell : ℕ) : Gun Unit := setup_map_listener contentNode cell

/-- A map listener on the neighbours. -/
def setup_neighbors_listener (neighborsNode : GunNode) (cell : ℕ) : Gun Unit := setup_map_listener neighborsNode cell

/-- A map listener on the content, for the computation. -/
def setup_computation (contentNode : GunNode) (cell : ℕ) : Gun Unit := setup_map_listener contentNode cell

/-- `create_gun_cell`: all four listeners. -/
def create_gun_cell (id : String) : Gun Unit := do
  let stateNodes ← create_state_nodes id true
  let cell ← fresh
  setup_strongest_listener stateNodes.strongestNode cell
  setup_content_listener stateNodes.contentNode cell
  setup_neighbors_listener stateNodes.neighborsNode cell
  setup_computation stateNodes.contentNode cell

/-- A cell that only receives: no listener for the computation. -/
def gun_cell_receiver (id : String) : Gun Unit := do
  let stateNodes ← create_state_nodes id false
  let cell ← fresh
  setup_strongest_listener stateNodes.strongestNode cell
  setup_content_listener stateNodes.contentNode cell
  setup_neighbors_listener stateNodes.neighborsNode cell

/-- The listeners belong to the propagator that writes the cell. -/
def cell_to_gun_cell (id : String) : Gun Unit := do
  let representation := GunNode.gun.get id
  let propagator ← fresh
  let manager ← getListenerManager propagator
  let contentListener ← fresh
  registerMapListener manager (representation.get "content") contentListener
  let neighborsListener ← fresh
  registerMapListener manager (representation.get "neighbors") neighborsListener

/-! ## Runs -/

/-- The calls, of the cells and of the managers themselves, which whoever has one may
keep; `data` is a call of a listener by the database. -/
inductive GunOperation where
  | create_gun_cell (id : String)
  | gun_cell_receiver (id : String)
  | cell_to_gun_cell (id : String)
  | getListenerManager (object : ℕ)
  | register (m : ℕ) (node : GunNode) (key : Option String)
  | registerMapListener (m : ℕ) (node : GunNode)
  | closeKeyListener (m : ℕ) (key : String)
  | dispose (m : ℕ)
  | disposeListeners (object : ℕ)
  | data (listener : GunListener)

/-- A wrapped listener does nothing once its manager is disposed. -/
def GunWorld.data (w : GunWorld) (listener : GunListener) : GunWorld :=
  match listener with
  | .plain _ => w.emit [.ran listener]
  | .wrapped m _ => if (w.manager m).disposed then w else w.emit [.ran listener]

/-- One call. -/
def GunOperation.perform : GunOperation → Gun Unit
  | .create_gun_cell id => GunListeners.create_gun_cell id
  | .gun_cell_receiver id => GunListeners.gun_cell_receiver id
  | .cell_to_gun_cell id => GunListeners.cell_to_gun_cell id
  | .getListenerManager object => do
    let _ ← GunListeners.getListenerManager object
    return ()
  | .register m node key => do
    let listener ← fresh
    GunListeners.register m node (.plain listener) key
  | .registerMapListener m node => do
    let listener ← fresh
    GunListeners.registerMapListener m node listener
  | .closeKeyListener m key => modify (·.closeKeyListener m key)
  | .dispose m => modify (·.dispose m)
  | .disposeListeners object => modify (·.disposeListeners object)
  | .data listener => modify (·.data listener)

/-- The manager that a call is made on was constructed. -/
def GunOperation.Meant (w : GunWorld) : GunOperation → Prop
  | .register m _ _ | .registerMapListener m _ | .closeKeyListener m _ | .dispose m => m < w.managers.length
  | .data (.wrapped m _) => m < w.managers.length
  | _ => True

instance (w : GunWorld) (op : GunOperation) : Decidable (op.Meant w) := by
  unfold GunOperation.Meant
  split <;> infer_instance

/-- What a call that throws did before stays. -/
def step (w : GunWorld) (op : GunOperation) : GunWorld := if op.Meant w then stateAfter (op.perform w) else w

/-! ## What a call can do -/

/-- The moves that every call is made of. -/
inductive Move : GunWorld → GunWorld → Prop where
  | count (w : GunWorld) : Move w { w with next := w.next + 1 }
  | construct (w : GunWorld) (object : ℕ) (new : w.listenerManagers.get? object = none) : Move w { w with
      managers := w.managers ++ [.new]
      listenerManagers := w.listenerManagers.set object w.managers.length }
  | hold (w : GunWorld) (m : ℕ) (handle : ListenerHandle) (constructed : m < w.managers.length)
      (live : (w.manager m).disposed = false) (listener : handle.listener.id = w.next) :
      Move w (GunWorld.hold { w with next := w.next + 1 } m handle)
  | direct (w : GunWorld) (id : String) :
      Move w (GunWorld.emit { w with next := w.next + 1 } [.on none (.get .gun id) (.plain w.next)])
  | close (w : GunWorld) (m : ℕ) (key : String) (constructed : m < w.managers.length) : Move w (w.closeKeyListener m key)
  | dispose (w : GunWorld) (m : ℕ) (constructed : m < w.managers.length) : Move w (w.dispose m)
  | forget (w : GunWorld) (object m : ℕ) (known : w.listenerManagers.get? object = some m)
      (disposed : (w.manager m).disposed = true) : Move w { w with listenerManagers := w.listenerManagers.delete object }
  | ran (w : GunWorld) (listener : GunListener)
      (live : ∀ m l, listener = .wrapped m l → (w.manager m).disposed = false) : Move w (w.emit [.ran listener])

/-- Any number of moves. -/
abbrev Moves : GunWorld → GunWorld → Prop := Relation.ReflTransGen Move

/-- The managers of objects were constructed. -/
def Owned (w : GunWorld) : Prop := ∀ object m, w.listenerManagers.get? object = some m → m < w.managers.length

theorem length_hold (w : GunWorld) (m : ℕ) (handle : ListenerHandle) :
    (w.hold m handle).managers.length = w.managers.length := by
  simp [GunWorld.hold, GunWorld.emit]

theorem length_close (w : GunWorld) (m : ℕ) (key : String) :
    (w.closeKeyListener m key).managers.length = w.managers.length := by
  unfold GunWorld.closeKeyListener
  split <;> simp [GunWorld.emit]

theorem length_dispose (w : GunWorld) (m : ℕ) : (w.dispose m).managers.length = w.managers.length := by
  unfold GunWorld.dispose
  split <;> simp [GunWorld.emit]

theorem listenerManagers_close (w : GunWorld) (m : ℕ) (key : String) :
    (w.closeKeyListener m key).listenerManagers = w.listenerManagers := by
  unfold GunWorld.closeKeyListener
  split <;> rfl

theorem listenerManagers_dispose (w : GunWorld) (m : ℕ) : (w.dispose m).listenerManagers = w.listenerManagers := by
  unfold GunWorld.dispose
  split <;> rfl

theorem Owned.move {w w' : GunWorld} (h : Owned w) (hmove : Move w w') : Owned w' := by
  intro object m hget
  cases hmove with
  | count => exact h object m hget
  | direct => exact h object m hget
  | ran => exact h object m hget
  | construct object' new =>
    simp only [OrdMap.get?_set, List.length_append, List.length_singleton] at hget ⊢
    split at hget
    · cases hget
      omega
    · exact (h object m hget).trans (by omega)
  | hold m' handle =>
    rw [length_hold]
    exact h object m hget
  | close m' key =>
    rw [length_close]
    rw [listenerManagers_close] at hget
    exact h object m hget
  | dispose m' =>
    rw [length_dispose]
    rw [listenerManagers_dispose] at hget
    exact h object m hget
  | forget object' m' =>
    simp only [OrdMap.get?_delete] at hget
    split at hget
    · cases hget
    · exact h object m hget

theorem Owned.moves {w w' : GunWorld} (h : Owned w) (hmoves : Moves w w') : Owned w' := by
  induction hmoves with
  | refl => exact h
  | tail _ hmove ih => exact ih.move hmove

theorem length_move {w w' : GunWorld} (hmove : Move w w') : w.managers.length ≤ w'.managers.length := by
  cases hmove with
  | count => exact le_rfl
  | direct => exact le_rfl
  | ran => exact le_rfl
  | forget => exact le_rfl
  | construct => simp
  | hold m handle => rw [length_hold]
  | close m key => rw [length_close]
  | dispose m => rw [length_dispose]

theorem length_moves {w w' : GunWorld} (hmoves : Moves w w') : w.managers.length ≤ w'.managers.length := by
  induction hmoves with
  | refl => exact le_rfl
  | tail _ hmove ih => exact ih.trans (length_move hmove)

theorem disposed_dispose {w : GunWorld} {m : ℕ} (hm : m < w.managers.length) : ((w.dispose m).manager m).disposed = true := by
  unfold GunWorld.dispose
  split
  · assumption
  · simp [GunWorld.manager, GunWorld.emit, hm]

/-! ### Calls as moves -/

section calls
variable {w : GunWorld}

theorem fresh_apply (w : GunWorld) : fresh w = .ok w.next { w with next := w.next + 1 } := rfl

theorem getListenerManager_moves (w : GunWorld) (object : ℕ) : ∃ m w', getListenerManager object w = .ok m w' ∧
    Moves w w' ∧ w'.listenerManagers.get? object = some m := by
  cases hget : w.listenerManagers.get? object with
  | some m =>
    refine ⟨m, w, ?_, .refl, hget⟩
    rw [getListenerManager, bind_of_ok (get_apply w), hget]
    rfl
  | none =>
    refine ⟨w.managers.length, _, ?_, .single (.construct w object hget), ?_⟩
    · rw [getListenerManager, bind_of_ok (get_apply w), hget]
      rfl
    · simp

theorem register_moves {m : ℕ} (hm : m < w.managers.length) (node : GunNode) (key : Option String) :
    Moves w (stateAfter ((fresh >>= fun listener => register m node (.plain listener) key) w)) := by
  rw [bind_of_ok (fresh_apply w), register, bind_of_ok (get_apply _)]
  split
  · exact .single (.count w)
  · rename_i hlive
    exact .single (.hold w m ⟨node, .plain w.next, key⟩ hm (Bool.not_eq_true _ ▸ hlive) rfl)

theorem registerMapListener_moves {m : ℕ} (hm : m < w.managers.length) (node : GunNode) :
    Moves w (stateAfter ((fresh >>= fun listener => registerMapListener m node listener) w)) := by
  rw [bind_of_ok (fresh_apply w), registerMapListener, bind_of_ok (get_apply _)]
  split
  · exact .single (.count w)
  · rename_i hlive
    exact .single (.hold w m ⟨node.map, .wrapped m w.next, none⟩ hm (Bool.not_eq_true _ ▸ hlive) rfl)

variable {α β : Type}

/-- Whether it returns or throws, the computation is made of moves. -/
def Calls (x : Gun α) : Prop := ∀ w, Owned w → Moves w (stateAfter (x w))

theorem Calls.pure (a : α) : Calls (pure a : Gun α) := fun _ _ => .refl

theorem Calls.fresh : Calls fresh := fun w _ => .single (.count w)

theorem moves_bind {x : Gun α} {f : α → Gun β} (hx : Moves w (stateAfter (x w)))
    (hf : ∀ a w', Moves w w' → Moves w' (stateAfter (f a w'))) : Moves w (stateAfter ((x >>= f) w)) := by
  rw [bind_apply]
  cases hres : x w with
  | ok a w' =>
    rw [hres] at hx
    exact hx.trans (hf a w' hx)
  | error e w' =>
    rw [hres] at hx
    exact hx

theorem Calls.bind {x : Gun α} {f : α → Gun β} (hx : Calls x) (hf : ∀ a, Calls (f a)) : Calls (x >>= f) :=
  fun w h => moves_bind (hx w h) fun a w' hmoves => hf a w' (h.moves hmoves)

theorem Calls.getListenerManager (object : ℕ) : Calls (getListenerManager object) := by
  intro w _
  obtain ⟨m, w', heq, hmoves, -⟩ := getListenerManager_moves w object
  rw [heq]
  exact hmoves

/-- A listener of a manager that was just looked up. -/
theorem Calls.listen (object : ℕ) {f : ℕ → ℕ → Gun Unit}
    (hf : ∀ w m, m < w.managers.length → Moves w (stateAfter ((GunListeners.fresh >>= f m) w))) :
    Calls (GunListeners.getListenerManager object >>= fun m => GunListeners.fresh >>= f m) := by
  intro w h
  obtain ⟨m, w', heq, hmoves, hget⟩ := getListenerManager_moves w object
  rw [bind_of_ok heq]
  exact hmoves.trans (hf w' m (h.moves hmoves object m hget))

theorem Calls.setup_strongest_listener (node : GunNode) (cell : ℕ) : Calls (setup_strongest_listener node cell) :=
  .listen cell fun _ _ hm => register_moves hm node none

theorem Calls.setup_map_listener (node : GunNode) (cell : ℕ) : Calls (setup_map_listener node cell) :=
  .listen cell fun _ _ hm => registerMapListener_moves hm node

theorem Calls.create_state_nodes (id : String) (useGunState : Bool) : Calls (create_state_nodes id useGunState) := by
  cases useGunState with
  | false => exact .pure _
  | true => exact fun w _ => .single (.direct w id)

theorem Calls.create_gun_cell (id : String) : Calls (create_gun_cell id) :=
  (Calls.create_state_nodes id true).bind fun nodes => Calls.fresh.bind fun cell =>
    (Calls.setup_strongest_listener nodes.strongestNode cell).bind fun _ =>
      (Calls.setup_map_listener nodes.contentNode cell).bind fun _ =>
        (Calls.setup_map_listener nodes.neighborsNode cell).bind fun _ => .setup_map_listener nodes.contentNode cell

theorem Calls.gun_cell_receiver (id : String) : Calls (gun_cell_receiver id) :=
  (Calls.create_state_nodes id false).bind fun nodes => Calls.fresh.bind fun cell =>
    (Calls.setup_strongest_listener nodes.strongestNode cell).bind fun _ =>
      (Calls.setup_map_listener nodes.contentNode cell).bind fun _ => .setup_map_listener nodes.neighborsNode cell

theorem Calls.cell_to_gun_cell (id : String) : Calls (cell_to_gun_cell id) := by
  refine Calls.fresh.bind fun propagator w h => ?_
  obtain ⟨m, w', heq, hmoves, hget⟩ := getListenerManager_moves w propagator
  rw [bind_of_ok heq, ← bind_assoc]
  have hm := h.moves hmoves propagator m hget
  refine hmoves.trans (moves_bind (registerMapListener_moves hm _) fun _ w'' hmoves' => ?_)
  exact registerMapListener_moves (hm.trans_le (length_moves hmoves')) _

end calls

/-! ## What every move keeps -/

/-- A listener is turned off after its manager turned it on. -/
def OffAfterOn (effects : List ListenerEffect) : Prop :=
  ∀ before m node listener after, effects = before ++ .off m node listener :: after → .on (some m) node listener ∈ before

/-- What a manager turned on is in its list until it is disposed of, and off after that. -/
structure Filed (manager : ℕ → GunListenerManager) (effects : List ListenerEffect) : Prop where
  listed : ∀ m node listener, .on (some m) node listener ∈ effects → (manager m).disposed = false →
    ∃ handle ∈ (manager m).listeners, handle.target = node ∧ handle.listener = listener
  closed : ∀ m node listener, .on (some m) node listener ∈ effects → (manager m).disposed = true →
    .off m node listener ∈ effects
  handles : ∀ m, ∀ handle ∈ (manager m).listeners, .on (some m) handle.target handle.listener ∈ effects
  keys : ∀ m key handle, (manager m).keyListeners.get? key = some handle →
    handle ∈ (manager m).listeners ∧ handle.given = some key
  emptied : ∀ m, (manager m).disposed = true → (manager m).listeners = []

/-- A manager that is not disposed of belongs to an object, and every listener is of one
owner. -/
structure Sound (w : GunWorld) : Prop where
  owned : Owned w
  live : ∀ m < w.managers.length, (w.manager m).disposed = false → ∃ object, w.listenerManagers.get? object = some m
  made : ∀ m node listener, .on (some m) node listener ∈ w.effects → m < w.managers.length
  filed : Filed w.manager w.effects
  ordered : OffAfterOn w.effects
  ids : ∀ owner node listener, .on owner node listener ∈ w.effects → listener.id < w.next
  one_owner : ∀ owner node listener owner' node' listener', .on owner node listener ∈ w.effects →
    .on owner' node' listener' ∈ w.effects → listener.id = listener'.id → owner = owner'

theorem OffAfterOn.append {effects effects' : List ListenerEffect} (h : OffAfterOn effects)
    (h' : ∀ m node listener, .off m node listener ∈ effects' → .on (some m) node listener ∈ effects) :
    OffAfterOn (effects ++ effects') := by
  intro before m node listener after heq
  rcases List.append_eq_append_iff.1 heq with ⟨mid, left, right⟩ | ⟨mid, left, right⟩
  · rw [left]
    exact List.mem_append_left _ (h' m node listener (right ▸ List.mem_append_right _ List.mem_cons_self))
  · cases mid with
    | nil =>
      rw [List.nil_append] at right
      rw [List.append_nil] at left
      exact left ▸ h' m node listener (right ▸ List.mem_cons_self)
    | cons e mid =>
      obtain ⟨rfl, -⟩ := List.cons.inj right
      exact h before m node listener mid left

section moves
variable {w : GunWorld}

theorem manager_modify (w : GunWorld) {m : ℕ} (hm : m < w.managers.length) (f : GunListenerManager → GunListenerManager)
    (m' : ℕ) : (w.managers.modify m f)[m']?.getD .new = if m' = m then f (w.manager m) else w.manager m' := by
  rw [List.getElem?_modify, GunWorld.manager, GunWorld.manager]
  by_cases h : m' = m
  · subst h
    simp [hm]
  · simp [h, Ne.symm h]

theorem manager_hold {m : ℕ} (hm : m < w.managers.length) (handle : ListenerHandle) (m' : ℕ) :
    (w.hold m handle).manager m' = if m' = m then { w.manager m with
      listeners := (w.manager m).listeners ++ [handle]
      keyListeners := handle.given.elim (w.manager m).keyListeners fun key => (w.manager m).keyListeners.set key handle }
    else w.manager m' :=
  manager_modify w hm _ m'

/-- More effects none of which turns anything on. -/
theorem Filed.append {manager : ℕ → GunListenerManager} {effects effects' : List ListenerEffect} (h : Filed manager effects)
    (hon : ∀ owner node listener, .on owner node listener ∉ effects') : Filed manager (effects ++ effects') := by
  have hold : ∀ {owner node listener}, .on owner node listener ∈ effects ++ effects' → .on owner node listener ∈ effects :=
    fun hmem => (List.mem_append.1 hmem).resolve_right (hon _ _ _)
  exact {
    listed := fun m node listener hmem => h.listed m node listener (hold hmem)
    closed := fun m node listener hmem hdisposed => List.mem_append_left _ (h.closed m node listener (hold hmem) hdisposed)
    handles := fun m handle hmem => List.mem_append_left _ (h.handles m handle hmem)
    keys := h.keys
    emptied := h.emptied }

theorem Filed.hold {manager : ℕ → GunListenerManager} {effects : List ListenerEffect} (h : Filed manager effects) {m : ℕ}
    (hlive : (manager m).disposed = false) (handle : ListenerHandle) :
    Filed (fun m' => if m' = m then { manager m with
        listeners := (manager m).listeners ++ [handle]
        keyListeners := handle.given.elim (manager m).keyListeners fun key => (manager m).keyListeners.set key handle }
      else manager m') (effects ++ [.on (some m) handle.target handle.listener]) where
  listed m' node listener hmem hdisposed := by
    rcases List.mem_append.1 hmem with hold | hnew
    · by_cases heq : m' = m
      · subst heq
        obtain ⟨handle', hlisted, htarget⟩ := h.listed m' node listener hold hlive
        exact ⟨handle', by simp [hlisted], htarget⟩
      · simp only [heq, if_false] at hdisposed ⊢
        exact h.listed m' node listener hold hdisposed
    · obtain ⟨hm, rfl, rfl⟩ : some m' = some m ∧ node = handle.target ∧ listener = handle.listener := by simpa using hnew
      exact ⟨handle, by simp [Option.some.inj hm], rfl, rfl⟩
  closed m' node listener hmem hdisposed := by
    by_cases heq : m' = m
    · simp [heq, hlive] at hdisposed
    · simp only [heq, if_false] at hdisposed
      have hold : .on (some m') node listener ∈ effects := by simpa [heq] using hmem
      exact List.mem_append_left _ (h.closed m' node listener hold hdisposed)
  handles m' handle' hmem := by
    by_cases heq : m' = m
    · subst heq
      simp only [if_true, List.mem_append, List.mem_singleton] at hmem
      rcases hmem with hmem | rfl
      · exact List.mem_append_left _ (h.handles m' handle' hmem)
      · exact List.mem_append_right _ (List.mem_singleton_self _)
    · simp only [heq, if_false] at hmem
      exact List.mem_append_left _ (h.handles m' handle' hmem)
  keys m' key handle' hget := by
    by_cases heq : m' = m
    · subst heq
      simp only [if_true] at hget ⊢
      cases hgiven : handle.given with
      | none =>
        rw [hgiven] at hget
        obtain ⟨hlisted, hkey⟩ := h.keys m' key handle' hget
        exact ⟨List.mem_append_left _ hlisted, hkey⟩
      | some key' =>
        rw [hgiven, Option.elim_some, OrdMap.get?_set] at hget
        split at hget
        · rename_i hkey
          cases hget
          exact ⟨List.mem_append_right _ (List.mem_singleton_self _), hkey ▸ hgiven⟩
        · obtain ⟨hlisted, hkey⟩ := h.keys m' key handle' hget
          exact ⟨List.mem_append_left _ hlisted, hkey⟩
    · simp only [heq, if_false] at hget ⊢
      exact h.keys m' key handle' hget
  emptied m' hdisposed := by
    by_cases heq : m' = m
    · simp [heq, hlive] at hdisposed
    · simp only [heq, if_false] at hdisposed ⊢
      exact h.emptied m' hdisposed

/-- Fewer keys. -/
theorem Filed.fewer_keys {manager manager' : ℕ → GunListenerManager} {effects : List ListenerEffect} (h : Filed manager effects)
    (hsame : ∀ m, (manager' m).listeners = (manager m).listeners ∧ (manager' m).disposed = (manager m).disposed)
    (hkeys : ∀ m key handle, (manager' m).keyListeners.get? key = some handle →
      (manager m).keyListeners.get? key = some handle) : Filed manager' effects where
  listed m node listener hmem hdisposed := by
    rw [(hsame m).1]
    exact h.listed m node listener hmem ((hsame m).2 ▸ hdisposed)
  closed m node listener hmem hdisposed := h.closed m node listener hmem ((hsame m).2 ▸ hdisposed)
  handles m handle hmem := h.handles m handle ((hsame m).1 ▸ hmem)
  keys m key handle hget := by
    rw [(hsame m).1]
    exact h.keys m key handle (hkeys m key handle hget)
  emptied m hdisposed := by
    rw [(hsame m).1]
    exact h.emptied m ((hsame m).2 ▸ hdisposed)

/-- The manager's listeners are all turned off. -/
theorem Filed.dispose {manager : ℕ → GunListenerManager} {effects effects' : List ListenerEffect} (h : Filed manager effects)
    (m : ℕ) (hon : ∀ owner node listener, .on owner node listener ∉ effects')
    (hoff : (manager m).disposed = false → ∀ handle ∈ (manager m).listeners, .off m handle.target handle.listener ∈ effects') :
    Filed (fun m' => if m' = m then { listeners := [], keyListeners := .empty, disposed := true } else manager m')
      (effects ++ effects') := by
  have happend := h.append hon
  refine ⟨fun m' node listener hmem hdisposed => ?_, fun m' node listener hmem hdisposed => ?_, fun m' handle hmem => ?_,
    fun m' key handle hget => ?_, fun m' hdisposed => ?_⟩ <;> by_cases heq : m' = m
  · simp [heq] at hdisposed
  · simp only [heq, if_false] at hdisposed ⊢
    exact happend.listed m' node listener hmem hdisposed
  · subst heq
    have hold := (List.mem_append.1 hmem).resolve_right (hon _ _ _)
    cases hlive : (manager m').disposed with
    | true => exact List.mem_append_left _ (h.closed m' node listener hold hlive)
    | false =>
      obtain ⟨handle, hlisted, rfl, rfl⟩ := h.listed m' node listener hold hlive
      exact List.mem_append_right _ (hoff hlive handle hlisted)
  · simp only [heq, if_false] at hdisposed
    exact happend.closed m' node listener hmem hdisposed
  · simp [heq] at hmem
  · simp only [heq, if_false] at hmem
    exact happend.handles m' handle hmem
  · simp [heq] at hget
  · simp only [heq, if_false] at hget ⊢
    exact happend.keys m' key handle hget
  · simp [heq]
  · simp only [heq, if_false] at hdisposed ⊢
    exact happend.emptied m' hdisposed

/-- The move turns nothing on, and off only what is on. -/
theorem Sound.quiet (h : Sound w) {w' : GunWorld} (hmove : Move w w') {effects : List ListenerEffect}
    (hobjects : w'.listenerManagers = w.listenerManagers) (hnext : w'.next = w.next)
    (heffects : w'.effects = w.effects ++ effects) (hon : ∀ owner node listener, .on owner node listener ∉ effects)
    (hoff : ∀ m node listener, .off m node listener ∈ effects → .on (some m) node listener ∈ w.effects)
    (hlive : w'.managers.length = w.managers.length ∧ ∀ m, (w'.manager m).disposed = false → (w.manager m).disposed = false)
    (hfiled : Filed w'.manager w'.effects) : Sound w' := by
  have hold : ∀ {owner node listener}, .on owner node listener ∈ w'.effects → .on owner node listener ∈ w.effects := by
    intro owner node listener hmem
    rw [heffects] at hmem
    exact (List.mem_append.1 hmem).resolve_right (hon _ _ _)
  refine {
    owned := h.owned.move hmove
    live := fun m hm hdisposed => ?_
    made := fun m node listener hmem => (h.made m node listener (hold hmem)).trans_le (length_move hmove)
    filed := hfiled
    ordered := ?_
    ids := fun owner node listener hmem => hnext ▸ h.ids owner node listener (hold hmem)
    one_owner := fun _ _ _ _ _ _ hmem hmem' => h.one_owner _ _ _ _ _ _ (hold hmem) (hold hmem') }
  · rw [hobjects]
    exact h.live m (hlive.1 ▸ hm) (hlive.2 m hdisposed)
  · rw [heffects]
    exact h.ordered.append hoff

theorem Sound.count (h : Sound w) : Sound { w with next := w.next + 1 } :=
  { h with ids := fun owner node listener hmem => Nat.lt_succ_of_lt (h.ids owner node listener hmem) }

/-- The new manager is what `manager` says of a place where none is. -/
theorem manager_construct (w : GunWorld) (m : ℕ) : (w.managers ++ [.new])[m]?.getD .new = w.manager m := by
  rw [GunWorld.manager, List.getElem?_append]
  split
  · rfl
  · rename_i hm
    rw [List.getElem?_eq_none (Nat.le_of_not_lt hm)]
    cases m - w.managers.length <;> rfl

theorem Sound.construct (h : Sound w) {object : ℕ} (new : w.listenerManagers.get? object = none) : Sound { w with
    managers := w.managers ++ [.new]
    listenerManagers := w.listenerManagers.set object w.managers.length } := by
  have hmanager : GunWorld.manager { w with
      managers := w.managers ++ [.new]
      listenerManagers := w.listenerManagers.set object w.managers.length } = w.manager :=
    funext (manager_construct w)
  refine {
    owned := h.owned.move (.construct w object new)
    live := fun m hm hdisposed => ?_
    made := fun m node listener hmem => (h.made m node listener hmem).trans_le (length_move (.construct w object new))
    filed := hmanager ▸ h.filed
    ordered := h.ordered
    ids := h.ids
    one_owner := h.one_owner }
  rw [hmanager] at hdisposed
  simp only [List.length_append, List.length_singleton] at hm
  by_cases hlast : m = w.managers.length
  · exact ⟨object, by simp [hlast]⟩
  · obtain ⟨object', hget⟩ := h.live m (by omega) hdisposed
    have hne : object' ≠ object := by
      rintro rfl
      rw [new] at hget
      cases hget
    exact ⟨object', by simp [hne, hget]⟩

theorem Sound.hold (h : Sound w) {m : ℕ} {handle : ListenerHandle} (hm : m < w.managers.length)
    (hlive : (w.manager m).disposed = false) (hid : handle.listener.id = w.next) :
    Sound (GunWorld.hold { w with next := w.next + 1 } m handle) := by
  have hmanager : GunWorld.manager (GunWorld.hold { w with next := w.next + 1 } m handle) =
      fun m' => if m' = m then { w.manager m with
        listeners := (w.manager m).listeners ++ [handle]
        keyListeners := handle.given.elim (w.manager m).keyListeners fun key => (w.manager m).keyListeners.set key handle }
      else w.manager m' := funext (manager_hold (w := { w with next := w.next + 1 }) hm handle)
  have hmem : ∀ owner node listener, .on owner node listener ∈ (GunWorld.hold { w with next := w.next + 1 } m handle).effects ↔
      .on owner node listener ∈ w.effects ∨ (owner = some m ∧ node = handle.target ∧ listener = handle.listener) := by
    simp [GunWorld.hold, GunWorld.emit]
  refine {
    owned := h.owned.move (.hold w m handle hm hlive hid)
    live := fun m' hm' hdisposed => ?_
    made := fun m' node listener hon => ?_
    filed := ?_
    ordered := h.ordered.append (by simp)
    ids := fun owner node listener hon => ?_
    one_owner := fun owner node listener owner' node' listener' hon hon' heq => ?_ }
  · rw [length_hold] at hm'
    rw [hmanager] at hdisposed
    refine h.live m' hm' ?_
    by_cases heq : m' = m
    · rw [heq]
      exact hlive
    · simpa [heq] using hdisposed
  · rw [length_hold]
    rcases (hmem ..).1 hon with hon | ⟨heq, -, -⟩
    · exact h.made m' node listener hon
    · cases heq
      exact hm
  · rw [hmanager]
    exact h.filed.hold hlive handle
  · rcases (hmem ..).1 hon with hon | ⟨-, -, rfl⟩
    · exact Nat.lt_succ_of_lt (h.ids owner node listener hon)
    · rw [hid]
      exact Nat.lt_succ_self _
  · rcases (hmem ..).1 hon with hon | ⟨rfl, -, rfl⟩ <;> rcases (hmem ..).1 hon' with hon' | ⟨rfl, -, rfl⟩
    · exact h.one_owner _ _ _ _ _ _ hon hon' heq
    · exact absurd (h.ids _ _ _ hon) (by omega)
    · exact absurd (h.ids _ _ _ hon') (by omega)
    · rfl

theorem Sound.direct (h : Sound w) (node : GunNode) :
    Sound (GunWorld.emit { w with next := w.next + 1 } [.on none node (.plain w.next)]) := by
  have hmem : ∀ owner node' listener, .on owner node' listener ∈ w.effects ++ [.on none node (.plain w.next)] ↔
      .on owner node' listener ∈ w.effects ∨ (owner = none ∧ node' = node ∧ listener = .plain w.next) := by
    simp
  refine {
    owned := h.owned
    live := h.live
    made := fun m node' listener hon => ?_
    filed := ?_
    ordered := h.ordered.append (by simp)
    ids := fun owner node' listener hon => ?_
    one_owner := fun owner node listener owner' node' listener' hon hon' heq => ?_ }
  · rcases (hmem ..).1 hon with hon | ⟨heq, -, -⟩
    · exact h.made m node' listener hon
    · cases heq
  · have hold : ∀ {m node' listener}, .on (some m) node' listener ∈ w.effects ++ [.on none node (.plain w.next)] →
        .on (some m) node' listener ∈ w.effects := fun hon => by simpa using hon
    exact {
      listed := fun m node' listener hon => h.filed.listed m node' listener (hold hon)
      closed := fun m node' listener hon hdisposed =>
        List.mem_append_left _ (h.filed.closed m node' listener (hold hon) hdisposed)
      handles := fun m handle hlisted => List.mem_append_left _ (h.filed.handles m handle hlisted)
      keys := h.filed.keys
      emptied := h.filed.emptied }
  · rcases (hmem ..).1 hon with hon | ⟨-, -, rfl⟩
    · exact Nat.lt_succ_of_lt (h.ids owner node' listener hon)
    · exact Nat.lt_succ_self _
  · rcases (hmem ..).1 hon with hon | ⟨rfl, -, rfl⟩ <;> rcases (hmem ..).1 hon' with hon' | ⟨rfl, -, rfl⟩
    · exact h.one_owner _ _ _ _ _ _ hon hon' heq
    · exact absurd (h.ids _ _ _ hon) (by rw [heq]; exact lt_irrefl _)
    · exact absurd (h.ids _ _ _ hon') (by rw [← heq]; exact lt_irrefl _)
    · rfl

theorem Sound.close (h : Sound w) {m : ℕ} (hm : m < w.managers.length) (key : String) : Sound (w.closeKeyListener m key) := by
  have hmove := Move.close w m key hm
  unfold GunWorld.closeKeyListener at hmove ⊢
  split
  · rename_i handle hget
    rw [hget] at hmove
    dsimp only at hmove
    obtain ⟨hlisted, hgiven⟩ := h.filed.keys m key handle hget
    have htarget : handle.target = handle.node.get key := by rw [ListenerHandle.target, hgiven]
    have hmanager := manager_modify w hm fun manager => { manager with keyListeners := manager.keyListeners.delete key }
    have hon := h.filed.handles m handle hlisted
    rw [htarget] at hon
    refine h.quiet hmove rfl rfl rfl (by simp) ?_ ⟨by simp [GunWorld.emit], fun m' hdisposed => ?_⟩ ?_
    · intro m' node listener hmem
      obtain ⟨rfl, rfl, rfl⟩ : m' = m ∧ node = handle.node.get key ∧ listener = handle.listener := by simpa using hmem
      exact hon
    · have heq := (congrArg GunListenerManager.disposed (hmanager m')).symm.trans hdisposed
      split at heq
      · rename_i hm'
        exact hm' ▸ heq
      · exact heq
    · refine (h.filed.fewer_keys (fun m' => ?_) fun m' key' handle' hget' => ?_).append (by simp)
      · change ((w.managers.modify m _)[m']?.getD .new).listeners = _ ∧ ((w.managers.modify m _)[m']?.getD .new).disposed = _
        rw [hmanager]
        split
        · rename_i hm'
          exact hm' ▸ ⟨rfl, rfl⟩
        · exact ⟨rfl, rfl⟩
      · change ((w.managers.modify m _)[m']?.getD .new).keyListeners.get? key' = _ at hget'
        rw [hmanager] at hget'
        split at hget'
        · rename_i hm'
          rw [OrdMap.get?_delete] at hget'
          split at hget'
          · cases hget'
          · exact hm' ▸ hget'
        · exact hget'
  · exact h

theorem Sound.dispose (h : Sound w) {m : ℕ} (hm : m < w.managers.length) : Sound (w.dispose m) := by
  have hmove := Move.dispose w m hm
  unfold GunWorld.dispose at hmove ⊢
  split
  · exact h
  · rename_i hlive
    rw [if_neg hlive] at hmove
    have hmanager := manager_modify w hm fun _ => { listeners := [], keyListeners := .empty, disposed := true }
    refine h.quiet hmove rfl rfl rfl (by simp) ?_ ⟨by simp [GunWorld.emit], fun m' hdisposed => ?_⟩ ?_
    · intro m' node listener hmem
      rcases List.mem_append.1 hmem with hmem | hmem
      · obtain ⟨handle, hlisted, heq⟩ := List.mem_map.1 hmem
        cases heq
        exact h.filed.handles m handle hlisted
      · obtain ⟨⟨key, handle⟩, hentry, heq⟩ := List.mem_map.1 hmem
        cases heq
        obtain ⟨hlisted, hgiven⟩ := h.filed.keys m key handle ((OrdMap.mem_entries_iff ..).1 hentry)
        have htarget : handle.target = handle.node.get key := by rw [ListenerHandle.target, hgiven]
        exact htarget ▸ h.filed.handles m handle hlisted
    · have heq := (congrArg GunListenerManager.disposed (hmanager m')).symm.trans hdisposed
      split at heq
      · cases heq
      · exact heq
    · change Filed (fun m' => (w.managers.modify m _)[m']?.getD .new) _
      rw [funext hmanager]
      refine h.filed.dispose m (by simp) fun _ handle hlisted => List.mem_append_left _ ?_
      exact List.mem_map_of_mem (f := fun handle : ListenerHandle => ListenerEffect.off m handle.target handle.listener) hlisted

theorem Sound.forget (h : Sound w) {object m : ℕ} (known : w.listenerManagers.get? object = some m)
    (disposed : (w.manager m).disposed = true) :
    Sound { w with listenerManagers := w.listenerManagers.delete object } := by
  refine { h with
    owned := h.owned.move (.forget w object m known disposed)
    live := fun m' hm' hdisposed => ?_ }
  obtain ⟨object', hget⟩ := h.live m' hm' hdisposed
  have hne : object' ≠ object := by
    rintro rfl
    rw [known] at hget
    cases hget
    exact Bool.false_ne_true (hdisposed.symm.trans disposed)
  exact ⟨object', by simp [hne, hget]⟩

theorem Sound.move (h : Sound w) {w' : GunWorld} (hmove : Move w w') : Sound w' := by
  cases hmove with
  | count => exact h.count
  | construct object new => exact h.construct new
  | hold m handle constructed live listener => exact h.hold constructed live listener
  | direct id => exact h.direct _
  | close m key constructed => exact h.close constructed key
  | dispose m constructed => exact h.dispose constructed
  | forget object m known disposed => exact h.forget known disposed
  | ran listener live =>
    exact h.quiet (.ran w listener live) rfl rfl rfl (by simp) (by simp) ⟨rfl, fun _ hdisposed => hdisposed⟩
      (h.filed.append (by simp))

theorem Sound.moves (h : Sound w) {w' : GunWorld} (hmoves : Moves w w') : Sound w' := by
  induction hmoves with
  | refl => exact h
  | tail _ hmove ih => exact ih.move hmove

/-! ## What stays on -/

/-- Before its manager is disposed of only a listener with a key is turned off. -/
structure StaysOn (w : GunWorld) : Prop where
  keyed : ∀ m node listener, .off m node listener ∈ w.effects → (w.manager m).disposed = true ∨
    ∃ handle ∈ (w.manager m).listeners, handle.listener = listener ∧ handle.given.isSome = true
  once : ∀ m, ∀ handle ∈ (w.manager m).listeners, ∀ handle' ∈ (w.manager m).listeners,
    handle.listener = handle'.listener → handle = handle'
  direct : ∀ node listener, .on none node listener ∈ w.effects → ∃ id, node = .get .gun id

/-- The managers are the same, and nothing is turned on or off. -/
theorem StaysOn.same (h : StaysOn w) {w' : GunWorld} {effects : List ListenerEffect} (heffects : w'.effects = w.effects ++ effects)
    (hquiet : ∀ e ∈ effects, ∃ listener, e = .ran listener) (hmanager : w'.manager = w.manager) : StaysOn w' where
  keyed m node listener hmem := by
    rw [heffects] at hmem
    rw [hmanager]
    refine h.keyed m node listener ((List.mem_append.1 hmem).resolve_right fun hnew => ?_)
    obtain ⟨_, heq⟩ := hquiet _ hnew
    cases heq
  once := by
    rw [hmanager]
    exact h.once
  direct node listener hmem := by
    rw [heffects] at hmem
    refine h.direct node listener ((List.mem_append.1 hmem).resolve_right fun hnew => ?_)
    obtain ⟨_, heq⟩ := hquiet _ hnew
    cases heq

theorem StaysOn.hold (h : StaysOn w) (hsound : Sound w) {m : ℕ} {handle : ListenerHandle} (hm : m < w.managers.length)
    (hid : handle.listener.id = w.next) : StaysOn (GunWorld.hold { w with next := w.next + 1 } m handle) := by
  have hmanager : ∀ m', (GunWorld.hold { w with next := w.next + 1 } m handle).manager m' = _ :=
    manager_hold (w := { w with next := w.next + 1 }) hm handle
  have hlisteners : ∀ m', ((GunWorld.hold { w with next := w.next + 1 } m handle).manager m').listeners =
      (w.manager m').listeners ++ if m' = m then [handle] else [] := by
    intro m'
    rw [hmanager]
    by_cases heq : m' = m
    · rw [if_pos heq, if_pos heq, heq]
      rfl
    · rw [if_neg heq, if_neg heq, List.append_nil]
      rfl
  have hdisposed : ∀ m', ((GunWorld.hold { w with next := w.next + 1 } m handle).manager m').disposed = (w.manager m').disposed := by
    intro m'
    rw [hmanager]
    by_cases heq : m' = m
    · rw [if_pos heq, heq]
      rfl
    · rw [if_neg heq]
      rfl
  -- The listener is new, so no handle there was has it.
  have hnew : ∀ m', ∀ handle' ∈ (w.manager m').listeners, handle'.listener ≠ handle.listener := by
    intro m' handle' hmem heq
    have hlt := hsound.ids _ _ _ (hsound.filed.handles m' handle' hmem)
    rw [heq, hid] at hlt
    exact lt_irrefl _ hlt
  refine ⟨fun m' node listener hmem => ?_, fun m' x hx y hy heq => ?_, fun node listener hmem => ?_⟩
  · rw [hdisposed, hlisteners]
    have hold : .off m' node listener ∈ w.effects := by simpa [GunWorld.hold, GunWorld.emit] using hmem
    refine (h.keyed m' node listener hold).imp_right ?_
    rintro ⟨handle', hmem', hhandle⟩
    exact ⟨handle', List.mem_append_left _ hmem', hhandle⟩
  · rw [hlisteners] at hx hy
    have hlast : ∀ z ∈ (if m' = m then [handle] else []), z = handle := by
      intro z hz
      split at hz
      · exact List.mem_singleton.1 hz
      · cases hz
    rcases List.mem_append.1 hx with hx | hx <;> rcases List.mem_append.1 hy with hy | hy
    · exact h.once m' x hx y hy heq
    · exact absurd (heq.trans (congrArg _ (hlast y hy))) (hnew m' x hx)
    · exact absurd (heq.symm.trans (congrArg _ (hlast x hx))) (hnew m' y hy)
    · rw [hlast x hx, hlast y hy]
  · have hold : .on none node listener ∈ w.effects := by simpa [GunWorld.hold, GunWorld.emit] using hmem
    exact h.direct node listener hold

/-- A closed key changes neither a list nor whether a manager is disposed. -/
theorem manager_close (m : ℕ) (hm : m < w.managers.length) (key : String) (m' : ℕ) :
    ((w.closeKeyListener m key).manager m').listeners = (w.manager m').listeners ∧
      ((w.closeKeyListener m key).manager m').disposed = (w.manager m').disposed := by
  unfold GunWorld.closeKeyListener
  split
  · change ((w.managers.modify m _)[m']?.getD .new).listeners = _ ∧ ((w.managers.modify m _)[m']?.getD .new).disposed = _
    rw [manager_modify w hm]
    split
    · rename_i hm'
      exact hm' ▸ ⟨rfl, rfl⟩
    · exact ⟨rfl, rfl⟩
  · exact ⟨rfl, rfl⟩

theorem StaysOn.close (h : StaysOn w) (hsound : Sound w) {m : ℕ} (hm : m < w.managers.length) (key : String) :
    StaysOn (w.closeKeyListener m key) := by
  have hmanager := manager_close m hm key
  have heffects : ∀ e ∈ (w.closeKeyListener m key).effects, e ∈ w.effects ∨
      ∃ handle, (w.manager m).keyListeners.get? key = some handle ∧ e = .off m (handle.node.get key) handle.listener := by
    intro e hmem
    unfold GunWorld.closeKeyListener at hmem
    split at hmem
    · rename_i handle hget
      exact (List.mem_append.1 hmem).imp_right fun hnew => ⟨handle, hget, List.mem_singleton.1 hnew⟩
    · exact .inl hmem
  refine ⟨fun m' node listener hmem => ?_, fun m' => ?_, fun node listener hmem => ?_⟩
  · rw [(hmanager m').1, (hmanager m').2]
    rcases heffects _ hmem with hold | ⟨handle, hget, heq⟩
    · exact h.keyed m' node listener hold
    · cases heq
      obtain ⟨hlisted, hgiven⟩ := hsound.filed.keys m key handle hget
      exact .inr ⟨handle, hlisted, rfl, by rw [hgiven]; rfl⟩
  · rw [(hmanager m').1]
    exact h.once m'
  · rcases heffects _ hmem with hold | ⟨handle, -, heq⟩
    · exact h.direct node listener hold
    · cases heq

theorem manager_dispose {m : ℕ} (hm : m < w.managers.length) (m' : ℕ) : (m' = m ∧ ((w.dispose m).manager m').disposed = true) ∨
    (w.dispose m).manager m' = w.manager m' := by
  unfold GunWorld.dispose
  split
  · exact .inr rfl
  · change (m' = m ∧ ((w.managers.modify m _)[m']?.getD .new).disposed = true) ∨ (w.managers.modify m _)[m']?.getD .new = _
    rw [manager_modify w hm]
    split
    · rename_i hm'
      exact .inl ⟨hm', rfl⟩
    · exact .inr rfl

/-- What a disposal adds is about its manager. -/
theorem effects_dispose (m : ℕ) : ∃ effects, (w.dispose m).effects = w.effects ++ effects ∧
    ∀ e ∈ effects, ∃ node listener, e = .off m node listener := by
  unfold GunWorld.dispose
  split
  · exact ⟨[], (List.append_nil _).symm, by simp⟩
  · refine ⟨_, rfl, fun e hmem => ?_⟩
    rcases List.mem_append.1 hmem with hmem | hmem
    · obtain ⟨handle, -, rfl⟩ := List.mem_map.1 hmem
      exact ⟨_, _, rfl⟩
    · obtain ⟨entry, -, rfl⟩ := List.mem_map.1 hmem
      exact ⟨_, _, rfl⟩

theorem StaysOn.dispose (h : StaysOn w) (hsound : Sound w) {m : ℕ} (hm : m < w.managers.length) : StaysOn (w.dispose m) := by
  have hemptied := (hsound.dispose hm).filed.emptied
  obtain ⟨effects, heffects, hoff⟩ := effects_dispose (w := w) m
  refine ⟨fun m' node listener hmem => ?_, fun m' => ?_, fun node listener hmem => ?_⟩
  · rcases manager_dispose hm m' with ⟨-, hdisposed⟩ | hsame
    · exact .inl hdisposed
    · rw [heffects] at hmem
      rcases List.mem_append.1 hmem with hold | hnew
      · rw [hsame]
        exact h.keyed m' node listener hold
      · obtain ⟨_, _, heq⟩ := hoff _ hnew
        cases heq
        exact .inl (disposed_dispose hm)
  · rcases manager_dispose hm m' with ⟨-, hdisposed⟩ | hsame
    · rw [hemptied m' hdisposed]
      exact fun handle hmem => absurd hmem List.not_mem_nil
    · rw [hsame]
      exact h.once m'
  · rw [heffects] at hmem
    refine h.direct node listener ((List.mem_append.1 hmem).resolve_right fun hnew => ?_)
    obtain ⟨_, _, heq⟩ := hoff _ hnew
    cases heq

theorem StaysOn.turn_on (h : StaysOn w) (id : String) :
    StaysOn (GunWorld.emit { w with next := w.next + 1 } [.on none (.get .gun id) (.plain w.next)]) where
  keyed m node listener hmem := by
    have hold : .off m node listener ∈ w.effects := by simpa [GunWorld.emit] using hmem
    exact h.keyed m node listener hold
  once := h.once
  direct node listener hmem := by
    rcases List.mem_append.1 hmem with hold | hnew
    · exact h.direct node listener hold
    · obtain ⟨rfl, -⟩ : node = .get .gun id ∧ listener = .plain w.next := by simpa using hnew
      exact ⟨id, rfl⟩

theorem StaysOn.move (h : StaysOn w) (hsound : Sound w) {w' : GunWorld} (hmove : Move w w') : StaysOn w' := by
  cases hmove with
  | count => exact h.same (List.append_nil _).symm (by simp) rfl
  | construct object new => exact h.same (List.append_nil _).symm (by simp) (funext (manager_construct w))
  | hold m handle constructed live listener => exact h.hold hsound constructed listener
  | direct id => exact h.turn_on id
  | close m key constructed => exact h.close hsound constructed key
  | dispose m constructed => exact h.dispose hsound constructed
  | forget => exact h.same (List.append_nil _).symm (by simp) rfl
  | ran listener live => exact h.same rfl (by simp) rfl

/-! ## After a disposal -/

/-- What is done by the manager or by a listener that it wrapped. -/
def ListenerEffect.concerns (m : ℕ) : ListenerEffect → Bool
  | .on owner _ _ => owner == some m
  | .off m' _ _ => m' == m
  | .ran (.wrapped m' _) => m' == m
  | .ran (.plain _) => false

/-- The manager is disposed of, and nothing that concerns it happens after `effects`. -/
structure Inert (m : ℕ) (effects : List ListenerEffect) (w : GunWorld) : Prop where
  disposed : (w.manager m).disposed = true
  same : w.effects.filter (·.concerns m) = effects

theorem Inert.move {m : ℕ} {effects : List ListenerEffect} (h : Inert m effects w) (hsound : Sound w) {w' : GunWorld}
    (hmove : Move w w') : Inert m effects w' := by
  cases hmove with
  | count => exact ⟨h.disposed, h.same⟩
  | forget => exact ⟨h.disposed, h.same⟩
  | construct object new =>
    exact ⟨(congrArg GunListenerManager.disposed (manager_construct w m)).trans h.disposed, h.same⟩
  | direct id => exact ⟨h.disposed, by simpa [GunWorld.emit, ListenerEffect.concerns] using h.same⟩
  | hold m' handle constructed live listener =>
    have hne : m ≠ m' := by
      rintro rfl
      exact Bool.false_ne_true (live.symm.trans h.disposed)
    refine ⟨?_, by simpa [GunWorld.hold, GunWorld.emit, ListenerEffect.concerns, Ne.symm hne] using h.same⟩
    rw [manager_hold (w := { w with next := w.next + 1 }) constructed handle, if_neg hne]
    exact h.disposed
  | close m' key constructed =>
    refine ⟨(manager_close m' constructed key m).2.trans h.disposed, ?_⟩
    unfold GunWorld.closeKeyListener
    split
    · rename_i handle hget
      have hne : m' ≠ m := by
        rintro rfl
        have hlisted := (hsound.filed.keys m' key handle hget).1
        rw [hsound.filed.emptied m' h.disposed] at hlisted
        cases hlisted
      simpa [GunWorld.emit, ListenerEffect.concerns, hne] using h.same
    · exact h.same
  | dispose m' constructed =>
    by_cases heq : m' = m
    · subst heq
      rw [GunWorld.dispose, if_pos h.disposed]
      exact h
    · obtain ⟨effects', heffects, hoff⟩ := effects_dispose (w := w) m'
      refine ⟨?_, ?_⟩
      · rcases manager_dispose constructed m with ⟨-, hdisposed⟩ | hsame
        · exact hdisposed
        · rw [hsame]
          exact h.disposed
      · have hnone : effects'.filter (·.concerns m) = [] := by
          refine List.filter_eq_nil_iff.2 fun e hmem => ?_
          obtain ⟨node, listener, rfl⟩ := hoff e hmem
          simpa [ListenerEffect.concerns] using heq
        rw [heffects, List.filter_append, hnone, List.append_nil]
        exact h.same
  | ran listener live =>
    refine ⟨h.disposed, ?_⟩
    have hnone : (ListenerEffect.ran listener).concerns m = false := by
      cases listener with
      | plain l => rfl
      | wrapped m' l =>
        have hne : m' ≠ m := by
          rintro rfl
          exact Bool.false_ne_true ((live m' l rfl).symm.trans h.disposed)
        simpa [ListenerEffect.concerns] using hne
    simpa [GunWorld.emit, hnone] using h.same

end moves

/-! ## Every run -/

theorem StaysOn.moves {w w' : GunWorld} (h : StaysOn w) (hsound : Sound w) (hmoves : Moves w w') : Sound w' ∧ StaysOn w' := by
  induction hmoves with
  | refl => exact ⟨hsound, h⟩
  | tail _ hmove ih => exact ⟨ih.1.move hmove, ih.2.move ih.1 hmove⟩

theorem Inert.moves {m : ℕ} {effects : List ListenerEffect} {w w' : GunWorld} (h : Inert m effects w) (hsound : Sound w)
    (hmoves : Moves w w') : Inert m effects w' := by
  have hboth : Sound w' ∧ Inert m effects w' := by
    induction hmoves with
    | refl => exact ⟨hsound, h⟩
    | tail _ hmove ih => exact ⟨ih.1.move hmove, ih.2.move ih.1 hmove⟩
  exact hboth.2

end LainLang.Serialize.GunListeners
