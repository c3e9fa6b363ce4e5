import Mathlib.Data.List.Nodup
import Mathlib.Data.Fintype.Card

/-! Depth-first visits that emit output between the visits they start. -/

namespace SecretTyping.Search

variable {Node Output Fault : Type}

/-- Nodes reached from a root along edges that never enter a blocked node. -/
inductive ReachesAvoiding (next : Node → List Node) (blocked : Node → Prop) (root : Node) :
    Node → Prop where
  /-- A free root reaches itself. -/
  | root (free : ¬ blocked root) : ReachesAvoiding next blocked root root
  /-- A reached node passes on to each of its free successors. -/
  | step {node target : Node} (reached : ReachesAvoiding next blocked root node)
      (edge : target ∈ next node) (free : ¬ blocked target) :
      ReachesAvoiding next blocked root target

namespace ReachesAvoiding

variable {next : Node → List Node} {blocked loose : Node → Prop} {root node : Node}

/-- A reached node is never blocked. -/
theorem free (reached : ReachesAvoiding next blocked root node) : ¬ blocked node := by
  cases reached with
  | root free => exact free
  | step _ _ free => exact free

/-- Blocking fewer nodes loses no path. -/
theorem mono (weaker : ∀ n, loose n → blocked n)
    (reached : ReachesAvoiding next blocked root node) :
    ReachesAvoiding next loose root node := by
  -- Every node of the path is free of the smaller set as well.
  induction reached with
  | root free => exact .root (fun held => free (weaker _ held))
  | step _ edge free ih => exact .step ih edge (fun held => free (weaker _ held))

/-- A path may be entered through a free edge from an earlier node. -/
theorem head {target : Node} (freeRoot : ¬ blocked root) (edge : target ∈ next root)
    (reached : ReachesAvoiding next blocked target node) :
    ReachesAvoiding next blocked root node := by
  -- The induction walks the path from its end, so the new edge is put before its root.
  induction reached with
  | root free => exact .step (.root freeRoot) edge free
  | step _ edge free ih => exact .step ih edge free

/-- Only which edges and blocked nodes there are matters for reachability. -/
theorem congr {other : Node → List Node} (edges : ∀ n m, m ∈ next n ↔ m ∈ other n) :
    ReachesAvoiding next blocked root node ↔ ReachesAvoiding other blocked root node := by
  constructor <;> intro reached <;> induction reached with
  | root free => exact .root free
  | step _ edge free ih => first
    | exact .step ih ((edges _ _).mp edge) free
    | exact .step ih ((edges _ _).mpr edge) free

end ReachesAvoiding

/-- One thing a visited node does: write output, visit another node, or stop the whole search. -/
inductive Task (Node Output Fault : Type) where
  /-- Append one output to the log. -/
  | emit (output : Output)
  /-- Visit a node unless it is already listed. -/
  | visit (target : Node)
  /-- Abort with a fault. -/
  | fail (fault : Fault)

/-- The visited nodes in order of entry, and every output with the node that wrote it. -/
structure Trace (Node Output : Type) where
  visited : List Node
  log : List (Node × Output)

/-- The nodes a task list visits, in order. -/
def targets (tasks : List (Task Node Output Fault)) : List Node :=
  tasks.filterMap fun
    | .visit target => some target
    | _ => none

/-- The outputs a task list writes itself, in order. -/
def outputs (tasks : List (Task Node Output Fault)) : List Output :=
  tasks.filterMap fun
    | .emit output => some output
    | _ => none

@[simp] theorem targets_append (first second : List (Task Node Output Fault)) :
    targets (first ++ second) = targets first ++ targets second := by
  simp [targets]

@[simp] theorem outputs_append (first second : List (Task Node Output Fault)) :
    outputs (first ++ second) = outputs first ++ outputs second := by
  simp [outputs]

@[simp] theorem targets_emits (texts : List Output) :
    targets (texts.map (Task.emit : Output → Task Node Output Fault)) = [] := by
  simp [targets, List.filterMap_map]

@[simp] theorem outputs_emits (texts : List Output) :
    outputs (texts.map (Task.emit : Output → Task Node Output Fault)) = texts := by
  simp [outputs, List.filterMap_map]

/-- The outputs of a log that were written for one node, in order. -/
def written [DecidableEq Node] (log : List (Node × Output)) (node : Node) : List Output :=
  log.filterMap fun (owner, output) => if owner = node then some output else none

section Algorithm

variable [DecidableEq Node]

/-- Run the tasks of one node in order, entering unlisted nodes through the given visit. -/
def runTasks (enter : Node → Trace Node Output → Except Fault (Trace Node Output)) (owner : Node) :
    List (Task Node Output Fault) → Trace Node Output → Except Fault (Trace Node Output)
  | [], trace => .ok trace
  | .emit output :: rest, trace =>
    runTasks enter owner rest { trace with log := trace.log ++ [(owner, output)] }
  | .visit target :: rest, trace =>
    if target ∈ trace.visited then runTasks enter owner rest trace
    else do
      let trace ← enter target trace
      runTasks enter owner rest trace
  | .fail fault :: _, _ => .error fault

/-- List a node as visited, then run its tasks, nesting visits up to the given depth. -/
def visit (script : Node → List (Task Node Output Fault)) (exhausted : Fault) :
    Nat → Node → Trace Node Output → Except Fault (Trace Node Output)
  | 0, _, _ => .error exhausted
  | depth + 1, node, trace =>
    runTasks (visit script exhausted depth) node (script node)
      { trace with visited := trace.visited ++ [node] }

end Algorithm

section Appending

variable [DecidableEq Node]

/-- Task lists run one after the other. -/
theorem runTasks_append (enter : Node → Trace Node Output → Except Fault (Trace Node Output))
    (owner : Node) (first second : List (Task Node Output Fault)) (trace : Trace Node Output) :
    runTasks enter owner (first ++ second) trace =
      runTasks enter owner first trace >>= runTasks enter owner second := by
  -- The first list is run task by task, and what is left of it is followed by the second.
  induction first generalizing trace with
  | nil => rfl
  | cons task rest ih =>
    cases task with
    -- What is written is written before the rest.
    | emit output => exact ih _
    | visit target =>
      -- A listed node is skipped in both.
      simp only [List.cons_append, runTasks]
      split
      · exact ih _
      · -- A visit that goes wrong ends both runs.
        cases enter target trace with
        | error fault => rfl
        | ok middle => exact ih _
    | fail fault => rfl

/-- Tasks that only write append their outputs to the log. -/
theorem runTasks_emits (enter : Node → Trace Node Output → Except Fault (Trace Node Output))
    (owner : Node) (texts : List Output) (trace : Trace Node Output) :
    runTasks enter owner (texts.map Task.emit) trace =
      .ok { trace with log := trace.log ++ texts.map (owner, ·) } := by
  -- Every text is one more entry at the end of the log.
  induction texts generalizing trace with
  | nil => simp [runTasks]
  | cons text rest ih => simp [runTasks, ih, List.append_assoc]

/-- Tasks whose targets are all listed already do nothing but write. -/
theorem runTasks_listed_targets
    (enter : Node → Trace Node Output → Except Fault (Trace Node Output)) (owner : Node)
    {tasks : List (Task Node Output Fault)} {trace : Trace Node Output}
    (listed : ∀ target ∈ targets tasks, target ∈ trace.visited)
    (clean : ∀ fault, Task.fail fault ∉ tasks) :
    runTasks enter owner tasks trace =
      .ok { trace with log := trace.log ++ (outputs tasks).map (owner, ·) } := by
  -- A visit of a listed node is skipped, and nothing but writing is left.
  induction tasks generalizing trace with
  | nil => simp [runTasks, outputs]
  | cons task rest ih =>
    have cleanRest : ∀ fault, Task.fail fault ∉ rest :=
      fun fault found => clean fault (List.mem_cons_of_mem _ found)
    cases task with
    -- Writing lists no node.
    | emit output =>
      have listedRest : ∀ target ∈ targets rest,
          target ∈ ({ trace with log := trace.log ++ [(owner, output)] } :
            Trace Node Output).visited :=
        fun target found => listed target (by simpa [targets] using found)
      rw [runTasks, ih listedRest cleanRest]
      simp [outputs]
    | visit target =>
      -- The node is listed, so nothing happens.
      rw [runTasks, if_pos (listed target (by simp [targets]))]
      rw [ih (fun t found => listed t (by simp [targets] at found ⊢; exact .inr found)) cleanRest]
      simp [outputs]
    -- There is no such task.
    | fail fault => exact absurd (List.mem_cons_self ..) (clean fault)

/-- What was written for a node are the outputs of its entries. -/
theorem written_eq (log : List (Node × Output)) (node : Node) :
    written log node = (log.filter fun entry => entry.1 = node).map Prod.snd := by
  -- An entry of the log counts on both sides exactly when it belongs to the node.
  induction log with
  | nil => rfl
  | cons entry rest ih =>
    unfold written at ih ⊢
    by_cases owned : entry.1 = node <;> simp [owned, ih]

/-- A log that lets each of several nodes write in turn holds for each what it wrote. -/
theorem written_flatMap {nodes : List Node} (nodup : nodes.Nodup) (wrote : Node → List Output)
    (node : Node) :
    written (nodes.flatMap fun owner => (wrote owner).map (owner, ·)) node =
      if node ∈ nodes then wrote node else [] := by
  -- Only the turn of the node itself contributes, and the nodes take one turn each.
  induction nodes with
  | nil => rfl
  | cons first rest ih =>
    have others := ih (List.nodup_cons.mp nodup).2
    have single : written ((wrote first).map (first, ·)) node =
        if first = node then wrote first else [] := by
      unfold written
      rw [List.filterMap_map]
      by_cases owned : first = node
      · simp [owned]
      · simp [owned]
    rw [List.flatMap_cons]
    have both : ∀ log more : List (Node × Output),
        written (log ++ more) node = written log node ++ written more node := by
      intro log more
      simp [written]
    rw [both, single, others]
    by_cases owned : first = node
    · -- The first node does not occur among the others again.
      have stale : node ∉ rest := owned ▸ (List.nodup_cons.mp nodup).1
      simp [owned, stale]
    · simp [owned, Ne.symm owned]

/-- An entry of a log is among what was written for its node. -/
theorem mem_written {log : List (Node × Output)} {node : Node} {output : Output} :
    output ∈ written log node ↔ (node, output) ∈ log := by
  simp [written]

/-- Two logs that hold the same outputs for every node hold the same entries. -/
theorem perm_of_written [DecidableEq Output] {first second : List (Node × Output)}
    (same : ∀ node, written first node = written second node) : first.Perm second := by
  -- An entry occurs in a log as often as its output among those of its node.
  have counted : ∀ (log : List (Node × Output)) (entry : Node × Output),
      log.count entry = (written log entry.1).count entry.2 := by
    intro log entry
    induction log with
    | nil => rfl
    | cons first rest ih =>
      unfold written at ih ⊢
      by_cases owned : first.1 = entry.1 <;> by_cases equal : first.2 = entry.2 <;>
        simp_all [List.count_cons, Prod.ext_iff]
  refine List.perm_iff_count.mpr fun entry => ?_
  rw [counted, counted, same]

end Appending

section Results

variable (script : Node → List (Task Node Output Fault))

/-- The successors of a node are the visits of its script. -/
def successors (node : Node) : List Node := targets (script node)

/-- What a search that ended normally has done beyond the nodes it started from. -/
structure Explores (visited roots fresh : List Node) : Prop where
  nodup : fresh.Nodup
  unvisited : ∀ node ∈ fresh, node ∉ visited
  reached : ∀ node ∈ fresh, ∃ root ∈ roots,
    ReachesAvoiding (successors script) (· ∈ visited) root node
  covered : ∀ root ∈ roots, root ∈ visited ∨ root ∈ fresh
  closed : ∀ node ∈ fresh, ∀ target ∈ successors script node,
    target ∈ visited ∨ target ∈ fresh
  clean : ∀ node ∈ fresh, ∀ fault, Task.fail fault ∉ script node

variable {script}

/-- Exploring visits exactly the nodes reached from the roots around the listed ones. -/
theorem Explores.mem_iff {visited roots fresh : List Node}
    (explored : Explores script visited roots fresh) (node : Node) :
    node ∈ fresh ↔ ∃ root ∈ roots,
      ReachesAvoiding (successors script) (· ∈ visited) root node := by
  refine ⟨explored.reached node, ?_⟩
  intro ⟨root, member, reached⟩
  -- Walking the path, each node is fresh because its predecessor is closed under successors.
  induction reached with
  | root free => exact (explored.covered root member).resolve_left free
  | step _ edge free ih => exact (explored.closed _ ih _ edge).resolve_left free

/-- Only which nodes are listed matters, not how the list is written. -/
theorem Explores.congr {visited others roots fresh : List Node}
    (same : ∀ node, node ∈ visited ↔ node ∈ others)
    (explored : Explores script visited roots fresh) : Explores script others roots fresh where
  nodup := explored.nodup
  unvisited node member listed := explored.unvisited node member ((same node).mpr listed)
  reached node member := by
    obtain ⟨root, rootMember, reached⟩ := explored.reached node member
    exact ⟨root, rootMember, reached.mono fun n => (same n).mpr⟩
  covered root member := (explored.covered root member).imp_left (same root).mp
  closed node member target edge := (explored.closed node member target edge).imp_left
    (same target).mp
  clean := explored.clean

/-- Two searches in a row explore the roots of both. -/
theorem Explores.append {visited roots more fresh later : List Node}
    (first : Explores script visited roots fresh)
    (second : Explores script (visited ++ fresh) more later) :
    Explores script visited (roots ++ more) (fresh ++ later) := by
  -- Each clause is split by the search that its node was found in.
  refine ⟨?_, ?_, ?_, ?_, ?_, ?_⟩
  · -- The second search lists nothing that the first has listed.
    refine List.nodup_append.mpr ⟨first.nodup, second.nodup, ?_⟩
    rintro node member _ again rfl
    exact second.unvisited node again (List.mem_append.mpr (.inr member))
  · -- A node of the second search is not listed before either.
    intro node member
    rcases List.mem_append.mp member with member | member
    · exact first.unvisited node member
    · exact fun listed => second.unvisited node member (List.mem_append.mpr (.inl listed))
  · -- A node is reached from the roots of the search that has found it.
    intro node member
    rcases List.mem_append.mp member with member | member
    · obtain ⟨root, rootMember, reached⟩ := first.reached node member
      exact ⟨root, List.mem_append.mpr (.inl rootMember), reached⟩
    · obtain ⟨root, rootMember, reached⟩ := second.reached node member
      exact ⟨root, List.mem_append.mpr (.inr rootMember),
        reached.mono fun _ listed => List.mem_append.mpr (.inl listed)⟩
  · -- The roots of both searches are listed in the end.
    intro root member
    rcases List.mem_append.mp member with member | member
    · exact (first.covered root member).imp_right fun listed => List.mem_append.mpr (.inl listed)
    · rcases second.covered root member with listed | listed
      · exact (List.mem_append.mp listed).imp_right fun found => List.mem_append.mpr (.inl found)
      · exact .inr (List.mem_append.mpr (.inr listed))
  · -- What the first search lists is closed already, the second may use both.
    intro node member target edge
    rcases List.mem_append.mp member with member | member
    · exact (first.closed node member target edge).imp_right
        fun listed => List.mem_append.mpr (.inl listed)
    · rcases second.closed node member target edge with listed | listed
      · exact (List.mem_append.mp listed).imp_right fun found => List.mem_append.mpr (.inl found)
      · exact .inr (List.mem_append.mpr (.inr listed))
  · -- No script of either search raises a fault.
    intro node member
    rcases List.mem_append.mp member with member | member
    · exact first.clean node member
    · exact second.clean node member

/-- With no roots there is nothing to explore. -/
theorem Explores.nil (visited : List Node) : Explores script visited [] [] := by
  constructor <;> simp

/-- A listed root adds nothing. -/
theorem Explores.cons_listed {visited roots fresh : List Node} {root : Node}
    (listed : root ∈ visited) (explored : Explores script visited roots fresh) :
    Explores script visited (root :: roots) fresh where
  nodup := explored.nodup
  unvisited := explored.unvisited
  reached node member := by
    obtain ⟨found, foundMember, reached⟩ := explored.reached node member
    exact ⟨found, List.mem_cons_of_mem _ foundMember, reached⟩
  covered node member := by
    rcases List.mem_cons.mp member with rfl | member
    · exact .inl listed
    · exact explored.covered node member
  closed := explored.closed
  clean := explored.clean

/-- Entering a node explores it together with its successors. -/
theorem Explores.enter {visited fresh : List Node} {node : Node} (free : node ∉ visited)
    (clean : ∀ fault, Task.fail fault ∉ script node)
    (explored : Explores script (visited ++ [node]) (successors script node) fresh) :
    Explores script visited [node] (node :: fresh) := by
  -- The node entered is fresh itself, and its successors were the roots below it.
  have weaker : ∀ n, n ∈ visited → n ∈ visited ++ [node] :=
    fun _ listed => List.mem_append.mpr (.inl listed)
  have relist : ∀ n, n ∈ visited ++ [node] ∨ n ∈ fresh → n ∈ visited ∨ n ∈ node :: fresh := by
    rintro n (listed | found)
    · rcases List.mem_append.mp listed with listed | same
      · exact .inl listed
      · exact .inr (List.mem_cons.mpr (.inl (List.mem_singleton.mp same)))
    · exact .inr (List.mem_cons_of_mem _ found)
  refine ⟨?_, ?_, ?_, ?_, ?_, ?_⟩
  · -- The node is listed before its successors are searched.
    refine List.nodup_cons.mpr ⟨fun again => ?_, explored.nodup⟩
    exact explored.unvisited node again (by simp)
  · -- The nodes below are new in the longer list, and so in the shorter one.
    intro n member
    rcases List.mem_cons.mp member with rfl | member
    · exact free
    · exact fun listed => explored.unvisited n member (weaker n listed)
  · intro n member
    rcases List.mem_cons.mp member with rfl | member
    · exact ⟨n, by simp, .root free⟩
    · -- A path from a successor is a path from the node entered.
      obtain ⟨root, edge, reached⟩ := explored.reached n member
      exact ⟨node, by simp, .head free edge (reached.mono weaker)⟩
  · -- The root is the node itself.
    intro root member
    exact .inr (by simp [List.mem_singleton.mp member])
  · -- Its successors are the roots of the search below.
    intro n member target edge
    rcases List.mem_cons.mp member with rfl | member
    · exact relist target (explored.covered target edge)
    · exact relist target (explored.closed n member target edge)
  · -- Its own script has raised no fault, and neither have those below.
    intro n member
    rcases List.mem_cons.mp member with rfl | member
    · exact clean
    · exact explored.clean n member

end Results

section Runs

variable [DecidableEq Node] {script : Node → List (Task Node Output Fault)}

@[simp] theorem written_nil (node : Node) :
    written ([] : List (Node × Output)) node = [] := rfl

@[simp] theorem written_append (log more : List (Node × Output)) (node : Node) :
    written (log ++ more) node = written log node ++ written more node := by
  simp [written]

@[simp] theorem written_singleton (owner node : Node) (output : Output) :
    written [(owner, output)] node = if owner = node then [output] else [] := by
  by_cases same : owner = node <;> simp [written, same]

/-- A trace continues another by the nodes freshly visited and the whole output of each. -/
structure Continues (script : Node → List (Task Node Output Fault))
    (trace result : Trace Node Output) (roots fresh : List Node) : Prop where
  visited : result.visited = trace.visited ++ fresh
  explored : Explores script trace.visited roots fresh

/-- Each fresh node has written its own outputs, and no other node has written any. -/
def WritesFresh (script : Node → List (Task Node Output Fault))
    (trace result : Trace Node Output) (fresh : List Node) : Prop :=
  ∀ node, written result.log node =
    written trace.log node ++ if node ∈ fresh then outputs (script node) else []

/-- A visit that ends normally explores its node and lets every fresh node write once. -/
def Enters (script : Node → List (Task Node Output Fault))
    (enter : Node → Trace Node Output → Except Fault (Trace Node Output)) : Prop :=
  ∀ target trace result, target ∉ trace.visited → enter target trace = .ok result →
    ∃ fresh, Continues script trace result [target] fresh ∧
      WritesFresh script trace result fresh

/-- Running tasks explores their targets and interleaves no output of the nodes involved. -/
theorem runTasks_explores {enter : Node → Trace Node Output → Except Fault (Trace Node Output)}
    (enters : Enters script enter) (owner : Node) (tasks : List (Task Node Output Fault))
    (trace result : Trace Node Output)
    (quiet : owner ∈ trace.visited ∨ outputs tasks = [])
    (run : runTasks enter owner tasks trace = .ok result) :
    ∃ fresh, Continues script trace result (targets tasks) fresh ∧
      (∀ fault, Task.fail fault ∉ tasks) ∧
      ∀ node, written result.log node =
        written trace.log node ++ (if node ∈ fresh then outputs (script node) else []) ++
          if owner = node then outputs tasks else [] := by
  -- The tasks are run one by one; every visit among them satisfies its own specification.
  induction tasks generalizing trace with
  | nil =>
    simp only [runTasks, Except.ok.injEq] at run
    subst run
    exact ⟨[], ⟨by simp, .nil _⟩, by simp, by simp [outputs]⟩
  | cons task rest ih =>
    cases task with
    | emit output =>
      -- The owner is already listed, so its later outputs follow this one directly.
      have listed : owner ∈ trace.visited := by
        rcases quiet with listed | silent
        · exact listed
        · simp [outputs] at silent
      simp only [runTasks] at run
      obtain ⟨fresh, continued, clean, wrote⟩ :=
        ih { trace with log := trace.log ++ [(owner, output)] } (.inl listed) run
      refine ⟨fresh, ⟨continued.visited, continued.explored⟩, by simpa using clean, ?_⟩
      intro node
      rw [wrote node]
      by_cases same : owner = node
      · subst same
        have stale : owner ∉ fresh := fun again =>
          continued.explored.unvisited owner again listed
        simp [stale, outputs]
      · simp [same]
    | visit target =>
      -- What the visit writes is not of the owner.
      have quietRest : owner ∈ trace.visited ∨ outputs rest = [] := by
        simpa [outputs] using quiet
      simp only [runTasks] at run
      split at run
      · -- A listed node is skipped, and adds nothing.
        rename_i listed
        obtain ⟨fresh, continued, clean, wrote⟩ := ih _ quietRest run
        exact ⟨fresh, ⟨continued.visited, continued.explored.cons_listed listed⟩,
          by simpa using clean, wrote⟩
      · -- A new node is searched first, and then the rest.
        rename_i free
        cases entered : enter target trace with
        | error fault => simp [entered, Bind.bind, Except.bind] at run
        | ok middle =>
          simp only [entered, Bind.bind, Except.bind] at run
          obtain ⟨fresh, ⟨visited, explored⟩, wrote⟩ := enters _ _ _ free entered
          have quietMiddle : owner ∈ middle.visited ∨ outputs rest = [] :=
            quietRest.imp_left fun listed => by simp [visited, listed]
          obtain ⟨later, ⟨visitedLater, exploredLater⟩, clean, wroteLater⟩ :=
            ih _ quietMiddle run
          rw [visited] at visitedLater exploredLater
          refine ⟨fresh ++ later, ⟨by rw [visitedLater, List.append_assoc],
            explored.append exploredLater⟩, by simpa using clean, ?_⟩
          intro node
          rw [wroteLater node, wrote node]
          -- A node is fresh in at most one of the two searches.
          by_cases early : node ∈ fresh
          · have stale : node ∉ later := fun again =>
              exploredLater.unvisited node again (List.mem_append.mpr (.inr early))
            simp [early, stale, outputs]
          · simp [early, outputs]
    | fail fault => simp [runTasks] at run

/-- Visits satisfy their specification at every depth. -/
theorem visit_enters (exhausted : Fault) (depth : Nat) :
    Enters script (visit script exhausted depth) := by
  -- Each level runs its script with visits one level shallower.
  induction depth with
  | zero =>
    -- Without depth nothing is entered.
    intro target trace result _ run
    simp [visit] at run
  | succ depth ih =>
    intro target trace result free run
    simp only [visit] at run
    obtain ⟨fresh, ⟨visited, explored⟩, clean, wrote⟩ :=
      runTasks_explores ih target _ _ result (.inl (by simp)) run
    refine ⟨target :: fresh, ⟨by simp [visited], explored.enter free clean⟩, ?_⟩
    intro node
    have stale : target ∉ fresh := fun again => explored.unvisited target again (by simp)
    -- The outputs of the node itself are those of its script.
    rw [wrote node]
    by_cases same : target = node
    · subst same; simp [stale]
    · simp [same, Ne.symm same]

end Runs

section Faults

variable [DecidableEq Node] {script : Node → List (Task Node Output Fault)}

/-- A fault raised by the scripts of the nodes around the listed ones, or by lack of depth. -/
def Raised (script : Node → List (Task Node Output Fault)) (exhausted : Fault)
    (visited roots : List Node) (fault : Fault) : Prop :=
  fault = exhausted ∨ ∃ root ∈ roots, ∃ node,
    ReachesAvoiding (successors script) (· ∈ visited) root node ∧ Task.fail fault ∈ script node

/-- Every fault of running tasks is one of their own or one of a node they reach. -/
theorem runTasks_fault {exhausted fault : Fault}
    {enter : Node → Trace Node Output → Except Fault (Trace Node Output)}
    (enters : Enters script enter)
    (raises : ∀ target trace fault, target ∉ trace.visited → enter target trace = .error fault →
      Raised script exhausted trace.visited [target] fault)
    (owner : Node) (tasks : List (Task Node Output Fault)) (trace : Trace Node Output)
    (run : runTasks enter owner tasks trace = .error fault) :
    Task.fail fault ∈ tasks ∨ Raised script exhausted trace.visited (targets tasks) fault := by
  -- A fault comes from the first task that does not succeed.
  induction tasks generalizing trace with
  | nil => simp [runTasks] at run
  | cons task rest ih =>
    cases task with
    | emit output =>
      -- Writing cannot raise a fault, so it is one of the rest.
      simp only [runTasks] at run
      simpa [targets] using ih { trace with log := trace.log ++ [(owner, output)] } run
    | visit target =>
      -- A fault found around more listed nodes is also found around fewer.
      have widen : ∀ {visited roots : List Node}, (∀ n, n ∈ trace.visited → n ∈ visited) →
          (∀ root ∈ roots, root ∈ targets (.visit target :: rest)) →
          Raised script exhausted visited roots fault →
          Raised script exhausted trace.visited
            (targets (.visit target :: rest)) fault := by
        rintro visited roots listed among (lack | ⟨root, member, node, reached, fails⟩)
        · exact .inl lack
        · exact .inr ⟨root, among root member, node, reached.mono listed, fails⟩
      have amongRest : ∀ root ∈ targets rest,
          root ∈ targets (.visit target :: rest) :=
        fun root member => by simp [targets] at member ⊢; exact .inr member
      simp only [runTasks] at run
      split at run
      · -- A listed node is skipped, and the fault is one of the rest.
        rcases ih _ run with own | raised
        · exact .inl (List.mem_cons_of_mem _ own)
        · exact .inr (widen (fun _ listed => listed) amongRest raised)
      · rename_i free
        cases entered : enter target trace with
        -- The visit itself has raised the fault.
        | error raised =>
          simp only [entered, Bind.bind, Except.bind, Except.error.injEq] at run
          subst run
          exact .inr (widen (fun _ listed => listed) (by simp [targets])
            (raises _ _ _ free entered))
        | ok middle =>
          simp only [entered, Bind.bind, Except.bind] at run
          -- The visit has gone through, and the fault is one of the rest.
          obtain ⟨fresh, ⟨visited, _⟩, _⟩ := enters _ _ _ free entered
          rcases ih _ run with own | raised
          · exact .inl (List.mem_cons_of_mem _ own)
          · exact .inr (widen (fun n listed => by simp [visited, listed]) amongRest raised)
    | fail raised =>
      -- The task is the fault.
      simp only [runTasks, Except.error.injEq] at run
      exact .inl (by simp [run])

/-- Every fault of a visit is raised by a node it reaches, or by lack of depth. -/
theorem visit_fault (exhausted : Fault) (depth : Nat) :
    ∀ target (trace : Trace Node Output) fault, target ∉ trace.visited →
      visit script exhausted depth target trace = .error fault →
      Raised script exhausted trace.visited [target] fault := by
  -- The fault of a visit is one of its script, run with visits one level shallower.
  induction depth with
  | zero =>
    intro target trace fault _ run
    simp only [visit, Except.error.injEq] at run
    exact .inl run.symm
  | succ depth ih =>
    intro target trace fault free run
    simp only [visit] at run
    rcases runTasks_fault (visit_enters exhausted depth) ih _ _ _ run with own | raised
    · exact .inr ⟨target, by simp, target, .root free, own⟩
    · rcases raised with lack | ⟨root, edge, node, reached, fails⟩
      · exact .inl lack
      · refine .inr ⟨target, by simp, node, .head free edge ?_, fails⟩
        exact reached.mono fun _ listed => List.mem_append.mpr (.inl listed)

end Faults

section Termination

variable [DecidableEq Node] [Fintype Node] {script : Node → List (Task Node Output Fault)}

/-- How many nodes are not yet listed. -/
def unvisited (visited : List Node) : Nat :=
  (Finset.univ.filter fun node : Node => node ∉ visited).card

/-- Listing more nodes leaves no more of them unvisited. -/
theorem unvisited_append_le (visited fresh : List Node) :
    unvisited (visited ++ fresh) ≤ unvisited visited := by
  -- What is unlisted in the longer list is unlisted in the shorter one.
  refine Finset.card_le_card fun node member => ?_
  simp only [Finset.mem_filter, Finset.mem_univ, true_and, List.mem_append, not_or] at member ⊢
  exact member.1

/-- Listing an unlisted node leaves strictly fewer unvisited. -/
theorem unvisited_append_lt {visited : List Node} {node : Node} (free : node ∉ visited) :
    unvisited (visited ++ [node]) < unvisited visited := by
  -- The node itself is the one that is no longer counted.
  refine Finset.card_lt_card ⟨fun other member => ?_, fun all => ?_⟩
  · simp only [Finset.mem_filter, Finset.mem_univ, true_and, List.mem_append, not_or] at member ⊢
    exact member.1
  · have : node ∈ Finset.univ.filter fun n : Node => n ∉ visited ++ [node] :=
      all (by simpa using free)
    simp at this

/-- Tasks cannot run out of depth while their visits do not. -/
theorem runTasks_not_exhausted {exhausted : Fault} {depth : Nat}
    {enter : Node → Trace Node Output → Except Fault (Trace Node Output)}
    (enters : Enters script enter)
    (bounded : ∀ target trace, target ∉ trace.visited → unvisited trace.visited ≤ depth →
      enter target trace ≠ .error exhausted)
    (owner : Node) (tasks : List (Task Node Output Fault)) (silent : Task.fail exhausted ∉ tasks)
    (trace : Trace Node Output) (room : unvisited trace.visited ≤ depth) :
    runTasks enter owner tasks trace ≠ .error exhausted := by
  -- Earlier tasks only list more nodes, so later visits have no less room.
  induction tasks generalizing trace with
  | nil => simp [runTasks]
  | cons task rest ih =>
    have silentRest : Task.fail exhausted ∉ rest := fun found =>
      silent (List.mem_cons_of_mem _ found)
    cases task with
    | emit output => exact ih silentRest _ room
    | visit target =>
      simp only [runTasks]
      split
      · exact ih silentRest _ room
      · rename_i free
        cases entered : enter target trace with
        | error fault =>
          intro run
          simp only [Bind.bind, Except.bind, Except.error.injEq] at run
          subst run
          exact bounded _ _ free room entered
        | ok middle =>
          obtain ⟨fresh, ⟨visited, _⟩, _⟩ := enters _ _ _ free entered
          refine ih silentRest _ ?_
          rw [visited]
          exact Nat.le_trans (unvisited_append_le _ _) room
    | fail fault =>
      intro run
      simp only [runTasks, Except.error.injEq] at run
      exact silent (by simp [run])

/-- A depth of one level for each unlisted node is enough for a visit to end. -/
theorem visit_not_exhausted {exhausted : Fault}
    (silent : ∀ node, Task.fail exhausted ∉ script node) (depth : Nat) :
    ∀ target (trace : Trace Node Output), target ∉ trace.visited →
      unvisited trace.visited ≤ depth →
      visit script exhausted depth target trace ≠ .error exhausted := by
  -- Entering a node lists it, so the measure drops with the depth.
  induction depth with
  | zero =>
    intro target trace free room
    have := unvisited_append_lt free
    omega
  | succ depth ih =>
    intro target trace free room
    simp only [visit]
    refine runTasks_not_exhausted (visit_enters exhausted depth) ih _ _ (silent target) _ ?_
    have := unvisited_append_lt free
    simp only
    omega

end Termination

end SecretTyping.Search
