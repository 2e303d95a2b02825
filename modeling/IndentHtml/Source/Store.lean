import IndentHtml.Source.Basic

/-!
# Stores

A store holds templates under the normal forms of their paths.  How a path is spelled never
matters: what was put under a path is found under every path of the same normal form.

A store is asked through handles.  A new handle comes with an empty store of its own; a clone of a
handle is one more handle to the same store, so that a template that was added through the one is
found through the other.
-/

namespace IndentHtml

/-- Templates under normal paths. -/
structure Store where
  templates : List (NormalPath × Text)
  deriving DecidableEq, Repr

namespace Store

/-- The store without templates. -/
def empty : Store := ⟨[]⟩

/-- The template under a normal path. -/
def find? (store : Store) (key : NormalPath) : Option Text :=
  store.templates.lookup key

/-- Takes away the template at a path. -/
def remove (store : Store) (path : Path) : Store :=
  ⟨store.templates.filter fun entry => entry.1 ≠ path.normal⟩

/-- Puts a template at a path in place of the one that is there. -/
def add (store : Store) (path : Path) (template : Text) : Store :=
  ⟨(path.normal, template) :: (store.remove path).templates⟩

/-- The template at a path. -/
def read (store : Store) (path : Path) : Except ReadFailure Text :=
  match store.find? path.normal with
  | some t => .ok t
  | none => .error (.notStored path)

/-- A store as a source of templates. -/
def source (store : Store) : Source where
  isFile path := (store.find? path.normal).isSome
  canonical path := path.normal.toPath
  read := store.read

/-! ### Handles -/

/-- What a store can be asked. -/
inductive Request where
  | add (path : Path) (template : Text)
  | remove (path : Path)
  /-- Takes all templates away. -/
  | clear
  | isFile (path : Path)
  | read (path : Path)
  | canonical (path : Path)
  deriving DecidableEq, Repr

/-- What a store answers. -/
inductive Answer where
  /-- The answer to a request that changes the store. -/
  | done
  | isFile (there : Bool)
  | content (result : Except ReadFailure Text)
  | path (canonical : Path)

/-- The answer to a request. -/
def answer (store : Store) : Request → Answer
  | .add _ _ => .done
  | .remove _ => .done
  | .clear => .done
  | .isFile path => .isFile (store.source.isFile path)
  | .read path => .content (store.source.read path)
  | .canonical path => .path (store.source.canonical path)

/-- The store after a request. -/
def next (store : Store) : Request → Store
  | .add path template => store.add path template
  | .remove path => store.remove path
  | .clear => empty
  | .isFile _ => store
  | .read _ => store
  | .canonical _ => store

end Store

/-- Stores and the handles to them, both in the order in which they came about. -/
structure Shelf where
  stores : List Store
  /-- The number of the store of each handle. -/
  handles : List Nat

namespace Shelf

/-- The shelf without stores. -/
def empty : Shelf := ⟨[], []⟩

/-- What can happen to a shelf.  A handle is given by its number. -/
inductive Event where
  /-- A new handle with a store of its own. -/
  | create
  | clone (handle : Nat)
  | request (handle : Nat) (request : Store.Request)
  deriving DecidableEq, Repr

/-- The shelf after an event. -/
def step (shelf : Shelf) : Event → Shelf
  | .create => ⟨shelf.stores ++ [Store.empty], shelf.handles ++ [shelf.stores.length]⟩
  | .clone handle =>
      match shelf.handles[handle]? with
      | some number => { shelf with handles := shelf.handles ++ [number] }
      | none => shelf
  | .request handle request =>
      match shelf.handles[handle]? with
      | some number => { shelf with stores := shelf.stores.modify number (·.next request) }
      | none => shelf

/-- The shelf after a sequence of events. -/
def run (shelf : Shelf) (events : List Event) : Shelf :=
  events.foldl step shelf

/-- The store of a handle answers a request. -/
def answer? (shelf : Shelf) (handle : Nat) (request : Store.Request) : Option Store.Answer :=
  (shelf.handles[handle]?.bind (shelf.stores[·]?)).map (·.answer request)

end Shelf

end IndentHtml
