import Mathlib
import PulseFlow.Proofs.Filing

/-!
# A circle that counts

Two templates and five nodes make a loop: `Flow.Loop` compares a number with a limit and sends it to
the body or to the end, the body writes it, `Flow.Increment` adds one and leads back.  The loop is
built by calls, each of which has to succeed (`build`), and is then run for every limit.

Nodes get their numbers in the order in which they come about.

    0 looper, 1 body, 2 increment, 3 done, 4 finish                     the circle
    5 6 inputs, 7 8 9 outputs, 10 comparison                            the copy of `Flow.Loop`
    11 input, 12 output, 13 one, 14 sum                                 the copy of `Flow.Increment`

From the moment when the comparison is due (`choosing`), eight waves bring the next such moment if
the number is below the limit, and four waves bring rest if it is not.  What the waves do does not
hang on what the signals are, so these two facts hold of all signals, and each wave of them is
computed.

    c.lessThan l = true  → runFrom t 8 (choosing c l) = (.unfinished, choosing (c + 1) l) (run_turn)
    c.lessThan l = false → runFrom t 4 (choosing c l) = (.idle (t + 4), finished l)       (run_end)
-/

namespace PulseFlow.Counter

open Engine

/-! ## Building the loop -/

def incrementKey : Key := ⟨"Flow", "Increment"⟩

def loopKey : Key := ⟨"Flow", "Loop"⟩

def addKey : Key := ⟨"Math", "Add"⟩

def lessKey : Key := ⟨"Compare", "LessThan"⟩

def printKey : Key := ⟨"IO", "Print"⟩

/-- Asks for a node of a template; a failure ends the course. -/
def asked (action : Draft.Action) (next : NodeId → Edit (Except Error Unit)) :
    Edit (Except Error Unit) :=
  .act action fun
    | .ok (.node id) => next id
    -- no other answer comes to such a question
    | .ok _ => .finish (.ok ())
    | .error err => .finish (.error err)

/-- Makes a connection in a template; a failure ends the course. -/
def joined (source target : Socket) (next : Edit (Except Error Unit)) : Edit (Except Error Unit) :=
  .act (.connect source target) fun
    | .ok _ => next
    | .error err => .finish (.error err)

/-- One more than what comes in. -/
def incrementCourse : Edit (Except Error Unit) :=
  asked (.addLogic (.constant (.int 1))) fun one =>
  asked (.add addKey) fun sum =>
  asked (.input 0) fun input =>
  joined ⟨input, 0⟩ ⟨one, 0⟩ <|
  joined ⟨input, 0⟩ ⟨sum, 0⟩ <|
  joined ⟨one, 0⟩ ⟨sum, 1⟩ <|
  asked (.output 0) fun output =>
  joined ⟨sum, 0⟩ ⟨output, 0⟩ <|
  .finish (.ok ())

/-- A number and a limit: the number goes out at the first output if it is below the limit, else at
the second, and the limit at the third. -/
def loopCourse : Edit (Except Error Unit) :=
  asked (.add lessKey) fun less =>
  asked (.input 0) fun number =>
  asked (.input 1) fun limit =>
  asked (.output 0) fun below =>
  asked (.output 1) fun reached =>
  asked (.output 2) fun again =>
  joined ⟨number, 0⟩ ⟨less, 0⟩ <|
  joined ⟨limit, 0⟩ ⟨less, 1⟩ <|
  joined ⟨limit, 0⟩ ⟨again, 0⟩ <|
  joined ⟨less, 0⟩ ⟨below, 0⟩ <|
  joined ⟨less, 1⟩ ⟨reached, 0⟩ <|
  .finish (.ok ())

/-- Calls on an engine, up to the first that fails. -/
abbrev Build := StateT Engine (Except Error)

def call {α : Type} (f : Engine → Except Error α × Engine) : Build α := fun e =>
  match f e with
  | (.ok a, e) => .ok (a, e)
  | (.error err, _) => .error err

def placing (l : Logic) : Build NodeId := call fun e => (.ok (e.addLogic l).1, (e.addLogic l).2)

/-- Registers a prototype; its course has to succeed, too. -/
def registered (key : Key) (inputs outputs : Nat) (course : Edit (Except Error Unit)) :
    Build Unit := do
  let answer ← call fun e => e.register key inputs outputs course
  call fun e => (answer, e)

/-- The loop, with zero and a limit on its way in. -/
def build (limit : Int64) : Build Unit := do
  registered incrementKey 1 1 incrementCourse
  registered loopKey 2 3 loopCourse
  let looper ← call fun e => e.create loopKey
  let body ← call fun e => e.create printKey
  let increment ← call fun e => e.create incrementKey
  let done ← placing (.constant (.text "Done!"))
  let finish ← call fun e => e.create printKey
  call fun e => e.connect ⟨looper, 0⟩ ⟨body, 0⟩
  call fun e => e.connect ⟨looper, 1⟩ ⟨done, 0⟩
  call fun e => e.connect ⟨looper, 2⟩ ⟨looper, 1⟩
  call fun e => e.connect ⟨body, 0⟩ ⟨increment, 0⟩
  call fun e => e.connect ⟨increment, 0⟩ ⟨looper, 0⟩
  call fun e => e.connect ⟨done, 0⟩ ⟨finish, 0⟩
  call fun e => e.pulse ⟨looper, 0⟩ (.int 0)
  call fun e => e.pulse ⟨looper, 1⟩ (.int limit)

/-! ## The engine at some moments -/

def wired (n : Node) (fans : List (List Socket)) : Node :=
  { n with outputs := fans.map SortedSet.ofList }

def incrementTemplate : List Node :=
  [wired (.native .socket) [[⟨2, 0⟩, ⟨3, 0⟩]],
    wired (.native .socket) [[]],
    wired (.native (.constant (.int 1))) [[⟨3, 1⟩]],
    wired (.native (.arithmetic .add)) [[⟨1, 0⟩]]]

def loopTemplate : List Node :=
  [wired (.native .socket) [[⟨5, 0⟩]],
    wired (.native .socket) [[⟨4, 0⟩, ⟨5, 1⟩]],
    wired (.native .socket) [[]],
    wired (.native .socket) [[]],
    wired (.native .socket) [[]],
    wired (.native (.relation .less)) [[⟨2, 0⟩], [⟨3, 0⟩]]]

/-- Where the outputs of the looper lead: to the body, to the end, and to the looper itself. -/
def looperFans : List (List Socket) := [[⟨1, 0⟩], [⟨3, 0⟩], [⟨0, 1⟩]]

def circle : List Node :=
  [wired (.reference loopKey 2 3) looperFans,
    wired (.native (.console .print)) [[⟨2, 0⟩]],
    wired (.reference incrementKey 1 1) [[⟨0, 0⟩]],
    wired (.native (.constant (.text "Done!"))) [[⟨4, 0⟩]],
    wired (.native (.console .print)) [[]]]

/-- The nodes of an instance whose first node has number `base`. -/
def copyAt (base : Nat) (template : List Node) : List Node :=
  template.map fun n =>
    { n with
      internal := true
      outputs := n.outputs.map fun f =>
        SortedSet.ofList (f.toList.map fun s => ⟨base + s.node, s.port⟩) }

def placed (nodes : List Node) : Graph := { cells := (nodes.map some).toArray }

def loopCopy : Instance := ⟨0, 1, [5, 6, 7, 8, 9, 10], [5, 6], [7, 8, 9]⟩

def incrementCopy : Instance := ⟨1, 1, [11, 12, 13, 14], [11], [12]⟩

def incrementPrototype (pool : List Instance) : Prototype where
  key := incrementKey
  graph := placed incrementTemplate
  inputs := [0]
  outputs := [1]
  revision := 1
  pool := pool

def loopPrototype (pool : List Instance) : Prototype where
  key := loopKey
  graph := placed loopTemplate
  inputs := [0, 1]
  outputs := [2, 3, 4]
  revision := 1
  pool := pool

variable (catalog : Catalog)

/-- The registry with what is in the two pools. -/
def registry (loops increments : List Instance) : Registry where
  catalog := catalog
  prototypes :=
    .ofList [(incrementKey, incrementPrototype increments), (loopKey, loopPrototype loops)]

/-- Nothing is placed yet. -/
def blank (registry : Registry) (w : World) : Engine := { registry, world := w }

/-- A node with all of its inputs, about to fire. -/
def holding (signals : List Signal) (n : Node) : Node :=
  { n with inputs := signals.map some, scheduled := true }

/-- The loop when it is built: a number and a limit are at the looper. -/
def start (c l : Signal) (w : World) (steps : Nat) : Engine where
  graph := (placed circle).modify 0 (holding [c, l])
  registry := registry catalog [] []
  pending := [0]
  steps := steps
  world := w

/-- The loop without signals, once the looper was bound.  The increment was bound, too, if it is
`made`. -/
def resting (made : Bool) (loops : List Instance) (w : World) (steps : Nat) : Engine where
  graph := placed (circle ++ copyAt 5 loopTemplate ++
    if made then copyAt 11 incrementTemplate else [])
  registry := registry catalog loops (if made then [incrementCopy] else [])
  steps := steps
  nextInstance := if made then 2 else 1
  world := w

/-- The loop while the looper is bound. -/
def bound (made : Bool) (w : World) (steps : Nat) : Engine :=
  let e := resting catalog made [] w steps
  { e with
    graph := (route e.graph loopCopy.outputs (looperFans.map SortedSet.ofList)).modify 0
      fun n => n.bind (some loopCopy)
    watch := [0] }

/-- A number and a limit are about to be compared. -/
def choosing (made : Bool) (c l : Signal) (w : World) (steps : Nat) : Engine :=
  let e := bound catalog made w steps
  { e with
    graph := (e.graph.modify 9 (holding [l])).modify 10 (holding [c, l])
    pending := [9, 10] }

/-- The limit is back at the looper. -/
def waiting (e : Engine) (l : Signal) : Engine :=
  { e with graph := e.graph.modify 0 fun n => n.store 1 l }

/-- The end: only the limit waits at the looper, for a number that will not come. -/
def finished (made : Bool) (l : Signal) (w : World) (steps : Nat) : Engine :=
  waiting (resting catalog made [loopCopy] w steps) l

/-! ## What the calls build -/

theorem run_call_bind {α β : Type} {f : Engine → Except Error α × Engine} {e e' : Engine} {a : α}
    (h : f e = (.ok a, e')) (next : α → Build β) : (call f >>= next).run e = (next a).run e' := by
  rw [StateT.run_bind]
  unfold StateT.run call
  rw [h]
  rfl

theorem run_placing_bind {β : Type} {e : Engine} (l : Logic) (next : NodeId → Build β) :
    (placing l >>= next).run e = (next (e.addLogic l).1).run (e.addLogic l).2 :=
  run_call_bind rfl next

theorem run_registered_bind {β : Type} {key : Key} {inputs outputs : Nat}
    {course : Edit (Except Error Unit)} {e e' : Engine}
    (h : e.register key inputs outputs course = (.ok (.ok ()), e')) (next : Build β) :
    (registered key inputs outputs course >>= fun _ => next).run e = next.run e' := by
  rw [registered, bind_assoc, run_call_bind h, run_call_bind rfl]

theorem run_asked {r : Registry} {action : Draft.Action} {d d' : Draft} {id : NodeId}
    (h : d.perform r action = (.ok (.node id), d')) (next : NodeId → Edit (Except Error Unit)) :
    (asked action next).run r d = (next id).run r d' := by
  rw [asked, Edit.run, h]

theorem perform_add {r : Registry} {d : Draft} {key : Key} {n : Node}
    (h : r.makeNode key d.heap = .ok (n, d.heap)) :
    d.perform r (.add key) = (.ok (.node (d.addNode n).1), (d.addNode n).2) := by
  rw [Draft.perform, Draft.add, h]
  rfl

theorem create_of_makeNode {e : Engine} {key : Key} {n : Node}
    (h : e.registry.makeNode key e.world.heap = .ok (n, e.world.heap)) :
    e.create key = (.ok (e.addNode n).1, (e.addNode n).2) := by
  rw [create, h]

theorem declare_of_free {e : Engine} {key : Key} {inputs outputs : Nat}
    (h : e.registry.contains key = false) :
    e.declare key inputs outputs = (.ok (), (e.report (.declared key inputs outputs)).putPrototype
      (Prototype.declare key inputs outputs)) := by
  rw [declare, h]
  rfl

/-- What a registered prototype becomes, given the outcome of the course. -/
theorem register_of_run {α : Type} {e : Engine} {key : Key} {inputs outputs : Nat}
    {course : Edit α} {a : α} {p : Prototype} (hfree : e.registry.contains key = false)
    (hrun : course.run (e.declare key inputs outputs).2.registry
      ⟨Prototype.declare key inputs outputs, e.world.heap⟩ = (a, ⟨p, e.world.heap⟩)) :
    e.register key inputs outputs course =
      (.ok a, ((e.declare key inputs outputs).2.report (.edited key 1 0)).putPrototype
        { p with revision := 1, pool := [] }) := by
  have hget : ((e.report (.declared key inputs outputs)).putPrototype
      (Prototype.declare key inputs outputs)).prototype? key =
        some (Prototype.declare key inputs outputs) := Table.get?_insert_self _ _ _
  rw [declare_of_free hfree] at hrun ⊢
  rw [register, declare_of_free hfree]
  dsimp only
  rw [edit, editBy, hget]
  dsimp only
  have hheap : ((e.report (.declared key inputs outputs)).putPrototype
      (Prototype.declare key inputs outputs)).world.heap = e.world.heap := rfl
  rw [hheap, hrun]
  rfl

/-- What the loop needs of a catalog. -/
structure Equipped (catalog : Catalog) : Prop where
  add : catalog.get? addKey = some (.arithmetic .add)
  less : catalog.get? lessKey = some (.relation .less)
  print : catalog.get? printKey = some (.console .print)
  increment : catalog.get? incrementKey = none
  loop : catalog.get? loopKey = none

theorem equipped_standard : Equipped Catalog.standard := by
  obtain ⟨hincrement, hloop⟩ : (Catalog.standard.get? incrementKey).isNone = true ∧
      (Catalog.standard.get? loopKey).isNone = true := by
    decide +kernel
  exact
    { add := Catalog.get?_standard (l := .arithmetic .add)
        (by simp [Catalog.builtins, Operator.all])
      less := Catalog.get?_standard (l := .relation .less)
        (by simp [Catalog.builtins, Relation.all])
      print := Catalog.get?_standard (l := .console .print)
        (by simp [Catalog.builtins, ConsoleAction.all])
      increment := Option.isNone_iff_eq_none.1 hincrement
      loop := Option.isNone_iff_eq_none.1 hloop }

variable {catalog}

theorem run_incrementCourse {r : Registry} {heap : Heap}
    (h : r.makeNode addKey heap = .ok (.native (.arithmetic .add), heap)) :
    incrementCourse.run r ⟨Prototype.declare incrementKey 1 1, heap⟩ =
      (.ok (), ⟨{ incrementPrototype [] with revision := 0 }, heap⟩) := by
  rw [incrementCourse, run_asked rfl, run_asked (perform_add h)]
  cbv

theorem run_loopCourse {r : Registry} {heap : Heap}
    (h : r.makeNode lessKey heap = .ok (.native (.relation .less), heap)) :
    loopCourse.run r ⟨Prototype.declare loopKey 2 3, heap⟩ =
      (.ok (), ⟨{ loopPrototype [] with revision := 0 }, heap⟩) := by
  rw [loopCourse, run_asked (perform_add h)]
  cbv

theorem register_increment (h : Equipped catalog) (w : World) :
    (blank ⟨catalog, ∅⟩ w).register incrementKey 1 1 incrementCourse =
      (.ok (.ok ()), blank ⟨catalog, .ofList [(incrementKey, incrementPrototype [])]⟩
        (w.reportAll [.declared incrementKey 1 1, .edited incrementKey 1 0])) := by
  have hfree : (blank ⟨catalog, ∅⟩ w).registry.contains incrementKey = false := by
    rw [Registry.contains, Table.contains, blank, h.increment]
    rfl
  have hadd : ((blank ⟨catalog, ∅⟩ w).declare incrementKey 1 1).2.registry.catalog.get? addKey =
      some (.arithmetic .add) := by
    rw [declare_of_free hfree]
    exact h.add
  rw [register_of_run hfree (run_incrementCourse (Registry.makeNode_of_logic hadd rfl _)),
    declare_of_free hfree]
  cbv

theorem register_loop (h : Equipped catalog) (w : World) :
    (blank ⟨catalog, .ofList [(incrementKey, incrementPrototype [])]⟩ w).register loopKey 2 3
        loopCourse =
      (.ok (.ok ()), blank (registry catalog [] [])
        (w.reportAll [.declared loopKey 2 3, .edited loopKey 1 0])) := by
  have hfree :
      (blank ⟨catalog, .ofList [(incrementKey, incrementPrototype [])]⟩ w).registry.contains loopKey =
        false := by
    rw [Registry.contains, Table.contains, blank, h.loop]
    cbv
  have hless : ((blank ⟨catalog, .ofList [(incrementKey, incrementPrototype [])]⟩ w).declare loopKey
      2 3).2.registry.catalog.get? lessKey = some (.relation .less) := by
    rw [declare_of_free hfree]
    exact h.less
  rw [register_of_run hfree (run_loopCourse (Registry.makeNode_of_logic hless rfl _)),
    declare_of_free hfree]
  cbv

theorem run_build (h : Equipped catalog) (limit : Int64) (w : World) :
    (build limit).run (blank ⟨catalog, ∅⟩ w) =
      .ok ((), start catalog (.int 0) (.int limit) (w.reportAll
        [.declared incrementKey 1 1, .edited incrementKey 1 0, .declared loopKey 2 3,
          .edited loopKey 1 0]) 0) := by
  have hloop := fun heap : Heap => Registry.makeNode_of_prototype
    (r := registry catalog [] []) (p := loopPrototype []) h.loop (by cbv) heap
  have hincrement := fun heap : Heap => Registry.makeNode_of_prototype
    (r := registry catalog [] []) (p := incrementPrototype []) h.increment (by cbv) heap
  have hprint := fun heap : Heap => Registry.makeNode_of_logic
    (r := registry catalog [] []) h.print rfl heap
  rw [build, run_registered_bind (register_increment h w),
    run_registered_bind (register_loop h _),
    run_call_bind (create_of_makeNode (hloop _)), run_call_bind (create_of_makeNode (hprint _)),
    run_call_bind (create_of_makeNode (hincrement _)), run_placing_bind,
    run_call_bind (create_of_makeNode (hprint _))]
  cbv

/-! ## Waves -/

section Waves

variable (catalog) (made : Bool) (c l : Signal) (w : World) (steps taken : Nat)

theorem run_start : runFrom taken 1 (start catalog c l w steps) = (.unfinished,
    choosing catalog false c l (w.report (.instantiated loopKey 0 6)) (steps + 1)) := by
  cbv

/-- The wave of the comparison: the limit goes back to the looper, the number goes out at the output
for the outcome. -/
theorem choosing_step : (choosing catalog made c l w steps).step =
    let e := ((waiting (bound catalog made w steps) l).emit ⟨10, branch (c.lessThan l)⟩ c).sweep
    (.ok e.hasPending, { e with steps := e.steps + 1 }) := by
  cases made
  · cbv
  · cbv

/-- What is reported in a turn.  In the first one the increment is bound to a new copy. -/
def turnEvents : List Event :=
  [.pooled 0 loopKey, if made then .reused 1 incrementKey else .instantiated incrementKey 2 4,
    .pooled 1 incrementKey, .reused 0 loopKey]

variable {c l}

theorem run_turn (h : c.lessThan l = true) : runFrom taken 8 (choosing catalog made c l w steps) =
    (.unfinished, choosing catalog true (c.add (.int 1)) l
      ((w.write c.toText).reportAll (turnEvents made)) (steps + 8)) := by
  have hstep := choosing_step catalog made c l w steps
  -- the outcome decides the output, and only then can the waves be computed
  rw [h] at hstep
  rw [runFrom_of_step rfl rfl hstep]
  cases made
  · cbv
  · cbv

theorem run_end (h : c.lessThan l = false) : runFrom taken 4 (choosing catalog made c l w steps) =
    (.idle (taken + 4), finished catalog made l
      ((w.write "Done!").report (.pooled 0 loopKey)) (steps + 4)) := by
  have hstep := choosing_step catalog made c l w steps
  rw [h] at hstep
  rw [runFrom_of_step rfl rfl hstep]
  cases made
  · cbv
  · cbv

end Waves

/-! ## Numbers up to a limit -/

section Numbers

variable {limit : Int64} {k : Nat}

theorem toInt_ofNat_of_le (h : k ≤ limit.toInt.toNat) : (Int64.ofNat k).toInt = k := by
  have hmax := limit.toInt_lt
  exact Int64.toInt_ofNat_of_lt (by omega)

theorem toText_ofNat (h : k ≤ limit.toInt.toNat) :
    (Signal.int (Int64.ofNat k)).toText = Nat.repr k := by
  rw [Signal.toText, Signal.intText, toInt_ofNat_of_le h, if_neg (by omega)]
  rfl

theorem lessThan_ofNat (h : k ≤ limit.toInt.toNat) :
    (Signal.int (Int64.ofNat k)).lessThan (.int limit) = decide (k < limit.toInt.toNat) := by
  have hlt : Int64.ofNat k < limit ↔ k < limit.toInt.toNat := by
    rw [Int64.lt_iff_toInt_lt, toInt_ofNat_of_le h]
    omega
  exact decide_eq_decide.2 hlt

/-- Below the limit, adding one does not overflow. -/
theorem add_ofNat_one (h : k < limit.toInt.toNat) :
    (Signal.int (Int64.ofNat k)).add (.int 1) = .int (Int64.ofNat (k + 1)) := by
  have hmax := limit.toInt_lt
  have hfits : Signal.FitsInt ((k + 1 : Nat) : Int) := by
    constructor
    · omega
    · omega
  have hone : (1 : Int64).toInt = 1 := by decide
  have hsum : (Signal.int (Int64.ofNat k)).add (.int 1) =
      Signal.ofInt ((Int64.ofNat k).toInt + (1 : Int64).toInt) := rfl
  rw [hsum, toInt_ofNat_of_le (Nat.le_of_lt h), hone, ← Int.natCast_succ, Signal.ofInt,
    if_pos hfits, Int64.ofInt_eq_ofNat]

end Numbers

/-! ## Counting -/

/-- What has happened when the loop has gone from `k` on for a number of turns and ended. -/
def worldAfter : Bool → Nat → Nat → World → World
  | _, _, 0, w => (w.write "Done!").report (.pooled 0 loopKey)
  | made, k, turns + 1, w =>
    worldAfter true (k + 1) turns ((w.write (Nat.repr k)).reportAll (turnEvents made))

theorem writes_worldAfter (made : Bool) (k turns : Nat) (w : World) :
    (worldAfter made k turns w).console.writes.toList =
      w.console.writes.toList ++ ((List.range' k turns).map Nat.repr ++ ["Done!"]) := by
  have hwrite : ∀ (console : Console) (text : String),
      (console.write text).writes.toList = console.writes.toList ++ [text] := by
    intro console text
    cases console with
    | script s => exact Array.toList_push
    | terminal t => exact Array.toList_push
  induction turns generalizing made k w with
  | zero => exact hwrite w.console "Done!"
  | succ turns ih =>
    have hturn : ((w.write (Nat.repr k)).reportAll (turnEvents made)).console.writes.toList =
        w.console.writes.toList ++ [Nat.repr k] := hwrite w.console (Nat.repr k)
    rw [worldAfter, ih, hturn, List.range'_succ, List.map_cons, List.append_assoc,
      List.singleton_append, List.cons_append]

/-- From the comparison of `k` on there are as many turns as `k` is below the limit. -/
theorem run_choosing (catalog : Catalog) {limit : Int64} {turns : Nat} (made : Bool)
    (k taken steps : Nat) (w : World) (h : k + turns = limit.toInt.toNat) (extra : Nat) :
    runFrom taken (8 * turns + 4 + extra)
        (choosing catalog made (.int (Int64.ofNat k)) (.int limit) w steps) =
      (.idle (taken + (8 * turns + 4)), finished catalog (made || decide (0 < turns)) (.int limit)
        (worldAfter made k turns w) (steps + (8 * turns + 4))) := by
  have hk : k ≤ limit.toInt.toNat := by omega
  induction turns generalizing made k taken steps w with
  | zero =>
    have hlast : (Signal.int (Int64.ofNat k)).lessThan (.int limit) = false := by
      rw [lessThan_ofNat hk]
      exact decide_eq_false (by omega)
    have hmade : (made || decide (0 < 0)) = made := Bool.or_false made
    rw [hmade]
    exact runFrom_idle_add (run_end catalog made w steps taken hlast) extra
  | succ turns ih =>
    have hlt : k < limit.toInt.toNat := by omega
    have hless : (Signal.int (Int64.ofNat k)).lessThan (.int limit) = true := by
      rw [lessThan_ofNat hk]
      exact decide_eq_true hlt
    have hturn := run_turn catalog made w steps taken hless
    rw [toText_ofNat hk, add_ofNat_one hlt] at hturn
    have hrest := ih true (k + 1) (taken + 8) (steps + 8)
      ((w.write (Nat.repr k)).reportAll (turnEvents made)) (by omega) hlt
    have hbudget : 8 * (turns + 1) + 4 + extra = 8 + (8 * turns + 4 + extra) := by omega
    have hwaves : ∀ n, n + (8 * (turns + 1) + 4) = n + 8 + (8 * turns + 4) := by omega
    have hmade : (made || decide (0 < turns + 1)) = true := by
      rw [decide_eq_true (Nat.succ_pos turns), Bool.or_true]
    rw [hbudget, runFrom_add hturn, hrest, hwaves, hwaves, hmade, Bool.true_or, worldAfter]

theorem run_start_int (limit : Int64) (w : World) (extra : Nat) :
    (start catalog (.int 0) (.int limit) w 0).run (8 * limit.toInt.toNat + 5 + extra) =
      (.idle (8 * limit.toInt.toNat + 5), finished catalog (decide (0 < limit.toInt.toNat))
        (.int limit) (worldAfter false 0 limit.toInt.toNat (w.report (.instantiated loopKey 0 6)))
        (8 * limit.toInt.toNat + 5)) := by
  have hbudget : 8 * limit.toInt.toNat + 5 + extra = 1 + (8 * limit.toInt.toNat + 4 + extra) := by
    omega
  have hwaves : 0 + 1 + (8 * limit.toInt.toNat + 4) = 8 * limit.toInt.toNat + 5 := by omega
  have hrest := run_choosing catalog false 0 (0 + 1) (0 + 1)
    (w.report (.instantiated loopKey 0 6)) (Nat.zero_add limit.toInt.toNat) extra
  rw [hwaves] at hrest
  rw [run, hbudget, runFrom_add (run_start catalog (.int 0) (.int limit) w 0 0)]
  exact hrest

theorem idleInstances_finished (made : Bool) (l : Signal) (w : World) (steps : Nat) :
    (finished catalog made l w steps).idleInstances loopKey = 1 ∧
      (finished catalog made l w steps).idleInstances incrementKey = if made then 1 else 0 := by
  cases made
  · constructor
    · cbv
    · cbv
  · constructor
    · cbv
    · cbv

/-- For every limit all calls succeed, and a run comes to rest after eight waves for each number
below the limit and five more; it has written these numbers in order and then `Done!`.  Nothing is
bound any more, and each template that was used has one instance in its pool. -/
theorem counts_up_to (limit : Int64) :
    ∃ e, (build limit).run (fresh {} (.script {})) = .ok ((), e) ∧
      ∀ extra,
        let turns := limit.toInt.toNat
        let r := e.run (8 * turns + 5 + extra)
        r.1 = .idle (8 * turns + 5) ∧ r.2.hasPending = false ∧
          r.2.world.console.writes.toList = (List.range turns).map Nat.repr ++ ["Done!"] ∧
          r.2.watch = [] ∧ r.2.idleInstances loopKey = 1 ∧
          r.2.idleInstances incrementKey = if 0 < limit then 1 else 0 := by
  refine ⟨_, run_build equipped_standard limit _, fun extra => ?_⟩
  intro turns r
  have hrun : r = _ := run_start_int limit _ extra
  have hpositive : 0 < limit ↔ 0 < turns := by
    rw [Int64.lt_iff_toInt_lt]
    exact Int.pos_iff_toNat_pos
  rw [hrun]
  refine ⟨rfl, rfl, ?_, rfl, (idleInstances_finished _ _ _ _).1, ?_⟩
  · rw [List.range_eq_range']
    exact writes_worldAfter false 0 turns _
  · rw [(idleInstances_finished _ _ _ _).2]
    simp only [decide_eq_true_eq, hpositive]
    rfl

end PulseFlow.Counter
