import IndentHtml.Proofs.Joining
import IndentHtml.Proofs.Spelling
import IndentHtml.Source.Store

/-!
# What a history leaves in a store

A store that is reached through several handles, and asked under several spellings of a path, is a
map on canonical paths.  A request *decides* a canonical path when it adds or removes a template
under it, however the path is spelled, or clears the store.  A template is *stored* after a history
of requests when the last request that decides its path has added it (`Store.Stored`).

**Histories** (`Shelf.answer_of_run`).  After any events, the store of a handle answers from the
history of the requests that reached it, through this handle or another one.  It reads a template
exactly when that template is stored, and it has a file exactly when it reads one.  Requests that
decide other paths change neither answer, and a clone goes on with the history of its original.

A canonical path is its own canonical path and has no `.` and no `..`, so it stands for all its
spellings (`Path.components_canonical`).
-/

namespace IndentHtml

/-! ### Canonical paths -/

namespace Path

/-- The path that a store keeps a template under. -/
def canonical (p : Path) : Path := p.normal.toPath

theorem canonical_canonical (p : Path) : p.canonical.canonical = p.canonical :=
  congrArg NormalPath.toPath p.normal_toPath

theorem canonical_eq_iff {p q : Path} : p.canonical = q.canonical ↔ p.normal = q.normal := by
  refine ⟨fun h => ?_, fun h => congrArg NormalPath.toPath h⟩
  have hnormal : p.canonical.normal = q.canonical.normal := congrArg normal h
  rwa [canonical, canonical, normal_toPath, normal_toPath] at hnormal

theorem NamesCount.ne_here {n : NormalPath} (h : NamesCount n) {name : Text}
    (hname : name ∈ n.names) : name ≠ ['.'] := by
  rintro rfl
  cases (h _ hname).2

/-- A canonical path does not start with `.`. -/
theorem bare_canonical (p : Path) : p.canonical.Bare := by
  have hcount := p.namesCount_normal
  rw [canonical, Bare]
  cases hnormal : p.normal with
  | mk absolute names =>
      rw [hnormal] at hcount
      cases absolute with
      | true =>
          have hroot : (NormalPath.mk true names).toPath =
              ⟨'/' :: List.intercalate ['/'] names⟩ := rfl
          rw [hroot, segments_cons_slash, List.head?_cons]
          exact fun h => absurd (Option.some.inj h) (List.cons_ne_nil _ _).symm
      | false =>
          have hjoin : (NormalPath.mk false names).toPath = ofSegments names := rfl
          rw [hjoin]
          cases names with
          | nil => exact fun h => absurd (Option.some.inj h) (List.cons_ne_nil _ _).symm
          | cons name names =>
              rw [segments_ofSegments (List.cons_ne_nil _ _) fun s hs => (hcount s hs).1,
                List.head?_cons]
              exact fun h => hcount.ne_here List.mem_cons_self (Option.some.inj h)

/-- A canonical path is a root, if it is absolute, and names. -/
theorem components_canonical (p : Path) :
    p.canonical.components =
      (if p.normal.absolute then [.root] else []) ++ p.normal.names.map .name := by
  rw [p.bare_canonical.components_eq]
  obtain ⟨hinner, hrel⟩ := inner_join p.namesCount_normal
  rw [canonical]
  cases hnormal : p.normal with
  | mk absolute names =>
      rw [hnormal] at hinner hrel
      cases absolute with
      | true =>
          have hroot : (NormalPath.mk true names).toPath =
              ⟨[] ++ '/' :: List.intercalate ['/'] names⟩ := rfl
          rw [hroot, inner_append, hinner]
          rfl
      | false =>
          have hjoin : (NormalPath.mk false names).toPath = ⟨List.intercalate ['/'] names⟩ := rfl
          rw [hjoin, hinner, hrel]

theorem not_mem_components_canonical (p : Path) :
    Component.here ∉ p.canonical.components ∧ Component.up ∉ p.canonical.components := by
  rw [components_canonical]
  constructor <;> split <;> simp

end Path

/-! ### One request -/

namespace Store

variable {store : Store} {request : Request} {requests : List Request} {c path : Path} {t : Text}

theorem find?_remove (store : Store) (path : Path) (key : NormalPath) :
    (store.remove path).find? key = if path.normal = key then none else store.find? key := by
  obtain ⟨templates⟩ := store
  rw [find?, remove, find?]
  induction templates with
  | nil => simp
  | cons entry templates ih =>
      obtain ⟨own, t⟩ := entry
      by_cases hown : own = path.normal
      · rw [List.filter_cons_of_neg (by simp [hown]), ih, List.lookup_cons]
        split
        · rfl
        · rw [beq_false_of_ne fun h => ‹path.normal ≠ key› (hown.symm.trans h.symm)]
      · rw [List.filter_cons_of_pos (by simp [hown]), List.lookup_cons, List.lookup_cons, ih]
        cases hkey : key == own with
        | false => rfl
        | true => exact (if_neg fun h => hown ((beq_iff_eq.1 hkey).symm.trans h.symm)).symm

theorem find?_add (store : Store) (path : Path) (template : Text) (key : NormalPath) :
    (store.add path template).find? key =
      if path.normal = key then some template else store.find? key := by
  have hremove := store.find?_remove path key
  rw [find?] at hremove
  rw [find?, add, List.lookup_cons, hremove]
  by_cases hkey : path.normal = key
  · rw [if_pos hkey, if_pos hkey, beq_iff_eq.2 hkey.symm]
  · rw [if_neg hkey, if_neg hkey, beq_false_of_ne (Ne.symm hkey)]

theorem find?_empty (key : NormalPath) : empty.find? key = none := rfl

/-- Holds of the requests that settle what is stored under a canonical path. -/
def Request.Decides (c : Path) : Request → Prop
  | .add path _ => path.canonical = c
  | .remove path => path.canonical = c
  | .clear => True
  | .isFile _ => False
  | .read _ => False
  | .canonical _ => False

/-- Holds of the request that puts a template under a canonical path. -/
def Request.Adds (c : Path) (t : Text) (request : Request) : Prop :=
  ∃ path, request = .add path t ∧ path.canonical = c

/-- A template is found after a request when the request has added it, or when it was found before
and the request decides other paths only. -/
theorem find?_next_eq_some_iff :
    (store.next request).find? path.normal = some t ↔
      request.Adds path.canonical t ∨
        ¬ request.Decides path.canonical ∧ store.find? path.normal = some t := by
  cases request with
  | add spelling template =>
      rw [next, find?_add]
      simp only [Request.Adds, Request.Decides, Path.canonical_eq_iff, Request.add.injEq]
      split <;> simp_all
  | remove spelling =>
      rw [next, find?_remove]
      simp only [Request.Adds, Request.Decides, Path.canonical_eq_iff]
      split <;> simp_all
  | clear => simp [next, find?_empty, Request.Adds, Request.Decides]
  | isFile spelling => simp [next, Request.Adds, Request.Decides]
  | read spelling => simp [next, Request.Adds, Request.Decides]
  | canonical spelling => simp [next, Request.Adds, Request.Decides]

/-! ### A history of requests -/

/-- A history stores a template under a canonical path when the last request that decides the path
has added the template. -/
def Stored (history : List Request) (c : Path) (t : Text) : Prop :=
  ∃ before request after, history = before ++ request :: after ∧ request.Adds c t ∧
    ∀ later ∈ after, ¬ later.Decides c

theorem not_stored_nil : ¬ Stored [] c t := by
  rintro ⟨before, request, after, hhistory, -⟩
  exact absurd hhistory.symm (List.append_ne_nil_of_right_ne_nil _ (List.cons_ne_nil _ _))

theorem stored_cons :
    Stored (request :: requests) c t ↔
      Stored requests c t ∨ request.Adds c t ∧ ∀ later ∈ requests, ¬ later.Decides c := by
  constructor
  · rintro ⟨before, first, after, hhistory, hadds, hafter⟩
    cases before with
    | nil =>
        obtain ⟨rfl, rfl⟩ := List.cons.inj hhistory
        exact .inr ⟨hadds, hafter⟩
    | cons other before =>
        exact .inl ⟨before, first, after, (List.cons.inj hhistory).2, hadds, hafter⟩
  · rintro (⟨before, first, after, rfl, hadds, hafter⟩ | ⟨hadds, hafter⟩)
    · exact ⟨request :: before, first, after, rfl, hadds, hafter⟩
    · exact ⟨[], request, requests, rfl, hadds, hafter⟩

/-- A template is found after a history when the history stores it, or when it was found before and
the history decides other paths only. -/
theorem find?_foldl_next :
    (requests.foldl next store).find? path.normal = some t ↔
      Stored requests path.canonical t ∨
        (∀ request ∈ requests, ¬ request.Decides path.canonical) ∧
          store.find? path.normal = some t := by
  induction requests generalizing store with
  | nil => simp [not_stored_nil]
  | cons request requests ih =>
      rw [List.foldl_cons, ih, find?_next_eq_some_iff, stored_cons, List.forall_mem_cons]
      tauto

/-- Requests that decide other paths do not change what is found. -/
theorem find?_foldl_next_of_forall_not
    (hother : ∀ request ∈ requests, ¬ request.Decides path.canonical) :
    (requests.foldl next store).find? path.normal = store.find? path.normal := by
  have hnone : ∀ t, ¬ Stored requests path.canonical t := by
    rintro t ⟨before, request, after, rfl, ⟨spelling, rfl, hspelling⟩, -⟩
    exact hother _ (List.mem_append_right _ List.mem_cons_self) hspelling
  refine Option.ext fun t => ?_
  rw [find?_foldl_next, or_iff_right (hnone t), and_iff_right hother]

/-! ### Answers -/

theorem read_eq_error_iff {cause : ReadFailure} :
    store.read path = .error cause ↔
      store.find? path.normal = none ∧ cause = .notStored path := by
  rw [read]
  cases store.find? path.normal with
  | none => simp [eq_comm]
  | some found => simp

end Store

/-! ### Shelves -/

namespace Shelf

variable {shelf : Shelf} {event : Event} {events more : List Event} {handle number : Nat}

/-- The store of a number.  It is empty as long as there is none of this number. -/
def store (shelf : Shelf) (number : Nat) : Store :=
  shelf.stores[number]?.getD Store.empty

/-- The request that an event brings to a store. -/
def brings? (shelf : Shelf) (number : Nat) : Event → Option Store.Request
  | .create => none
  | .clone _ => none
  | .request handle request =>
      if shelf.handles[handle]? = some number then some request else none

/-- The requests that events bring to a store through any of its handles, oldest first. -/
def history (shelf : Shelf) (number : Nat) : List Event → List Store.Request
  | [] => []
  | event :: events =>
      (shelf.brings? number event).toList ++ (shelf.step event).history number events

/-- Every handle leads to a store. -/
def Sound (shelf : Shelf) : Prop :=
  ∀ number ∈ shelf.handles, number < shelf.stores.length

theorem sound_empty : empty.Sound := by
  simp [Sound, empty]

theorem Sound.step (h : shelf.Sound) (event : Event) : (shelf.step event).Sound := by
  cases event with
  | create =>
      intro number hnumber
      simp only [Shelf.step, List.mem_append, List.mem_singleton, List.length_append,
        List.length_singleton] at hnumber ⊢
      obtain hnumber | rfl := hnumber
      · exact Nat.lt_succ_of_lt (h number hnumber)
      · exact Nat.lt_succ_self _
  | clone handle =>
      rw [Shelf.step]
      cases hhandle : shelf.handles[handle]? with
      | none => exact h
      | some original =>
          intro number hnumber
          obtain hnumber | hnumber := List.mem_append.1 hnumber
          · exact h number hnumber
          · rw [List.mem_singleton.1 hnumber]
            exact h original (List.mem_of_getElem? hhandle)
  | request handle request =>
      rw [Shelf.step]
      cases shelf.handles[handle]? with
      | none => exact h
      | some target =>
          intro number hnumber
          rw [List.length_modify]
          exact h number hnumber

theorem Sound.run (h : shelf.Sound) (events : List Event) : (shelf.run events).Sound := by
  induction events generalizing shelf with
  | nil => exact h
  | cons event events ih => exact ih (h.step event)

/-- Handles stay, and a new one comes after the others. -/
theorem handles_prefix_step (shelf : Shelf) (event : Event) :
    shelf.handles <+: (shelf.step event).handles := by
  cases event with
  | create => exact List.prefix_append _ _
  | clone handle =>
      rw [step]
      cases shelf.handles[handle]? with
      | none => exact List.prefix_rfl
      | some number => exact List.prefix_append _ _
  | request handle request =>
      rw [step]
      cases shelf.handles[handle]? with
      | none => exact List.prefix_rfl
      | some number => exact List.prefix_rfl

theorem handles_prefix_run (shelf : Shelf) (events : List Event) :
    shelf.handles <+: (shelf.run events).handles := by
  induction events generalizing shelf with
  | nil => exact List.prefix_rfl
  | cons event events ih => exact (shelf.handles_prefix_step event).trans (ih _)

/-- A handle leads to one store at all times. -/
theorem getElem?_handles_run (h : shelf.handles[handle]? = some number) (events : List Event) :
    (shelf.run events).handles[handle]? = some number := by
  obtain ⟨rest, hrest⟩ := shelf.handles_prefix_run events
  obtain ⟨hlt, -⟩ := List.getElem?_eq_some_iff.1 h
  rw [← hrest, List.getElem?_append_left hlt, h]

/-- A clone leads to the store of its original. -/
theorem getElem?_handles_step_clone (h : shelf.handles[handle]? = some number) :
    (shelf.step (.clone handle)).handles[shelf.handles.length]? = some number := by
  rw [step, h]
  exact List.getElem?_concat_length

/-- An event changes a store by the request that it brings to it. -/
theorem store_step (h : shelf.Sound) (event : Event) (number : Nat) :
    (shelf.step event).store number =
      (shelf.brings? number event).toList.foldl Store.next (shelf.store number) := by
  cases event with
  | create =>
      rw [step, store, store, brings?, List.getElem?_append]
      split <;> grind
  | clone handle =>
      rw [step, brings?]
      cases shelf.handles[handle]? with
      | none => rfl
      | some original => rfl
  | request handle request =>
      rw [step, brings?]
      cases hhandle : shelf.handles[handle]? with
      | none => rfl
      | some target =>
          have hlt := h target (List.mem_of_getElem? hhandle)
          by_cases hnumber : target = number
          · subst hnumber
            simp [store, List.getElem?_eq_getElem hlt]
          · simp [store, hnumber]

/-- Events change a store by the requests that they bring to it. -/
theorem store_run (h : shelf.Sound) (events : List Event) (number : Nat) :
    (shelf.run events).store number =
      (shelf.history number events).foldl Store.next (shelf.store number) := by
  induction events generalizing shelf with
  | nil => rfl
  | cons event events ih =>
      rw [history, List.foldl_append, ← store_step h]
      exact ih (h.step event)

/-- A handle answers as its store does. -/
theorem answer?_eq (h : shelf.Sound) (hhandle : shelf.handles[handle]? = some number)
    (request : Store.Request) :
    shelf.answer? handle request = some ((shelf.store number).answer request) := by
  have hlt := h number (List.mem_of_getElem? hhandle)
  simp [answer?, store, hhandle, List.getElem?_eq_getElem hlt]

theorem answer?_read (h : shelf.Sound) (hhandle : shelf.handles[handle]? = some number)
    (path : Path) :
    shelf.answer? handle (.read path) = some (.content ((shelf.store number).read path)) :=
  answer?_eq h hhandle _

theorem answer?_isFile (h : shelf.Sound) (hhandle : shelf.handles[handle]? = some number)
    (path : Path) :
    shelf.answer? handle (.isFile path) =
      some (.isFile ((shelf.store number).find? path.normal).isSome) :=
  answer?_eq h hhandle _

/-- A store that was empty at first reads what its history stores. -/
theorem read_store_run_eq_ok_iff {path : Path} {t : Text} :
    ((empty.run events).store number).read path = .ok t ↔
      Store.Stored (empty.history number events) path.canonical t := by
  have hempty : (empty.store number).find? path.normal = none := rfl
  rw [Store.read_eq_ok_iff, store_run sound_empty, Store.find?_foldl_next, hempty]
  simp

/-- **Histories.**  A handle answers from the history of the requests that reached its store,
through this handle or another one.  It reads a template exactly when the last request that decides
the canonical path has added the template, it finds nothing to read exactly when there is no such
template, and it has a file exactly when it reads one.  This stays so as long as the requests decide
other canonical paths, and a clone goes on as its original does.  The canonical path is its own
canonical path and has no `.` and no `..`. -/
theorem answer_of_run {events : List Event} {shelf : Shelf} {handle number : Nat}
    (hrun : empty.run events = shelf) (hhandle : shelf.handles[handle]? = some number)
    (path : Path) :
    (∀ t, shelf.answer? handle (.read path) = some (.content (.ok t)) ↔
        Store.Stored (empty.history number events) path.canonical t) ∧
      (shelf.answer? handle (.read path) = some (.content (.error (.notStored path))) ↔
        ∀ t, ¬ Store.Stored (empty.history number events) path.canonical t) ∧
      (∃ there, shelf.answer? handle (.isFile path) = some (.isFile there) ∧
        (there = true ↔
          ∃ t, shelf.answer? handle (.read path) = some (.content (.ok t)))) ∧
      (∀ more,
        (∀ request ∈ shelf.history number more, ¬ request.Decides path.canonical) →
          (shelf.run more).answer? handle (.read path) = shelf.answer? handle (.read path) ∧
          (shelf.run more).answer? handle (.isFile path) = shelf.answer? handle (.isFile path)) ∧
      (∀ more request,
        ((shelf.step (.clone handle)).run more).answer? shelf.handles.length request =
          ((shelf.step (.clone handle)).run more).answer? handle request) ∧
      shelf.answer? handle (.canonical path) = some (.path path.canonical) ∧
      path.canonical.canonical = path.canonical ∧
      Path.Component.here ∉ path.canonical.components ∧
      Path.Component.up ∉ path.canonical.components := by
  have hsound : shelf.Sound := hrun ▸ sound_empty.run events
  have hstored : ∀ t, (shelf.store number).read path = .ok t ↔
      Store.Stored (empty.history number events) path.canonical t := by
    subst hrun
    exact fun t => read_store_run_eq_ok_iff
  have hread := answer?_read hsound hhandle path
  have hfile := answer?_isFile hsound hhandle path
  refine ⟨fun t => ?read, ?nothing, ⟨_, hfile, ?file⟩, fun more hother => ?others,
    fun more request => ?clone, answer?_eq hsound hhandle _, path.canonical_canonical,
    path.not_mem_components_canonical⟩
  case read =>
    rw [hread, ← hstored]
    simp
  case nothing =>
    rw [hread]
    simp only [← hstored, Option.some.injEq, Store.Answer.content.injEq,
      Store.read_eq_error_iff, Store.read_eq_ok_iff, and_true, Option.eq_none_iff_forall_ne_some]
  case file =>
    rw [Option.isSome_iff_exists, hread]
    simp [Store.read_eq_ok_iff]
  case others =>
    -- the events bring the store nothing that could change what is found under the path
    have hsame : ((shelf.run more).store number).find? path.normal =
        (shelf.store number).find? path.normal := by
      rw [store_run hsound, Store.find?_foldl_next_of_forall_not hother]
    have hlater := getElem?_handles_run hhandle more
    rw [hread, hfile, answer?_read (hsound.run more) hlater,
      answer?_isFile (hsound.run more) hlater, Store.read, Store.read, hsame]
    exact ⟨rfl, rfl⟩
  case clone =>
    have hsound := hsound.step (.clone handle)
    have hclone := getElem?_handles_run (getElem?_handles_step_clone hhandle) more
    have horiginal :=
      getElem?_handles_run (getElem?_handles_run hhandle [.clone handle]) more
    rw [answer?_eq (hsound.run more) hclone]
    exact (answer?_eq (hsound.run more) horiginal request).symm

/-- What was added through a clone is read through the original, under another spelling, also after
another template was removed through the clone. -/
theorem answer_of_run_of_clone :
    ∃ (events : List Event) (shelf : Shelf),
      events = [.create, .clone 0, .request 0 (.add (Path.ofString "page") "p".toList),
        .request 1 (.add (Path.ofString "views/./nav") "nav".toList),
        .request 1 (.remove (Path.ofString "views/../page"))] ∧
      empty.run events = shelf ∧ shelf.handles[0]? = some 0 ∧
      shelf.answer? 0 (.read (Path.ofString "../views//x/../nav/")) =
        some (.content (.ok "nav".toList)) ∧
      shelf.answer? 0 (.read (Path.ofString "page")) =
        some (.content (.error (.notStored (Path.ofString "page")))) := by
  refine ⟨_, _, rfl, rfl, rfl, ?nav, ?page⟩
  case nav =>
    refine ((answer_of_run rfl rfl _).1 _).2 ⟨[.add (Path.ofString "page") "p".toList],
      .add (Path.ofString "views/./nav") "nav".toList, [.remove (Path.ofString "views/../page")],
      by decide +kernel, ⟨_, rfl, by decide +kernel⟩, ?_⟩
    simp only [List.mem_singleton, forall_eq, Store.Request.Decides]
    decide +kernel
  case page =>
    refine (answer_of_run rfl rfl _).2.1.2 fun t ht => ?_
    have hfound := Store.read_eq_ok_iff.1 (read_store_run_eq_ok_iff.2 ht)
    exact Option.some_ne_none t (hfound.symm.trans (by decide +kernel))

end Shelf

end IndentHtml
