import QueryDoc.Proofs.Tree.Keys
import QueryDoc.Proofs.Visit.Ends
import QueryDoc.Proofs.Visit.Record

/-! Tours: the walks of a visitor that always goes on. Each node of the tree is entered and
left at its own place, before and after everything below it, and nowhere else, and its position
tells the way to it. -/
namespace QueryDoc

variable {γ σ : Type}

/-! ## The calls of a tour -/

namespace Node

/-- The node at the end of a way down. -/
def endOf (n : Node) (way : List Child) : Node := (way.getLast?.map (·.node)).getD n

theorem endOf_cons (n : Node) (c : Child) (way : List Child) :
    n.endOf (c :: way) = c.node.endOf way := by
  cases way with
  | nil => rfl
  | cons d way =>
    simp only [endOf, List.getLast?_cons, Option.map_some, Option.getD_some]

theorem Descends.endOf {m n : Node} {way : List Child} (h : n.Descends way m) :
    n.endOf way = m := by
  induction h with
  | here n => rfl
  | down _ _ ih => rw [endOf_cons, ih]

end Node

namespace Position

/-- The position at the end of a way down from a node: the keys on the way are added to the
path, and all nodes passed but the last one to the ancestors. -/
def along (p : Position) (n : Node) (way : List Child) : Position :=
  ⟨p.path.extend (Node.pathOf way), p.ancestors ++ (n :: way.map (·.node)).dropLast⟩

theorem along_nil (p : Position) (n : Node) : p.along n [] = p := by
  obtain ⟨⟨segments⟩, ancestors⟩ := p
  simp [along, Path.extend, Node.pathOf]

theorem along_cons (p : Position) (n : Node) (c : Child) (way : List Child) :
    p.along n (c :: way) = (p.child n c.key).along c.node way := by
  simp [along, child, Path.extend, Node.pathOf_cons]

end Position

namespace Node

/-- The calls for a node at a position and for everything below it. -/
def tour (n : Node) (p : Position) : List Call :=
  ⟨.entering, n, p⟩ :: (n.children.attach.flatMap fun c => c.1.node.tour (p.child n c.1.key))
    ++ [⟨.leaving, n, p⟩]
termination_by sizeOf n
decreasing_by exact sizeOf_child c.2

theorem tour_eq (n : Node) (p : Position) :
    n.tour p = ⟨.entering, n, p⟩ :: (n.children.flatMap fun c => c.node.tour (p.child n c.key))
      ++ [⟨.leaving, n, p⟩] := by
  rw [tour, List.flatMap_subtype (g := fun c => c.node.tour (p.child n c.key)) fun _ _ => rfl,
    List.unattach_attach]

/-- The call for the node at the end of a way down from a node at a position. -/
def callAt (n : Node) (p : Position) (phase : Phase) (way : List Child) : Call :=
  ⟨phase, n.endOf way, p.along n way⟩

theorem callAt_nil (n : Node) (p : Position) (phase : Phase) :
    n.callAt p phase [] = ⟨phase, n, p⟩ := by
  rw [callAt, Position.along_nil]
  rfl

theorem callAt_cons (n : Node) (p : Position) (phase : Phase) (c : Child) (way : List Child) :
    n.callAt p phase (c :: way) = c.node.callAt (p.child n c.key) phase way := by
  rw [callAt, endOf_cons, Position.along_cons]
  rfl

/-- The calls below a node in one phase, where those for each child go along certain ways. -/
theorem filter_below {n : Node} {p : Position} {phase : Phase} {ways : Node → List (List Child)}
    (h : ∀ c ∈ n.children, ∀ p, (c.node.tour p).filter (·.phase = phase) =
      (ways c.node).map (c.node.callAt p phase)) :
    (n.children.flatMap fun c => c.node.tour (p.child n c.key)).filter (·.phase = phase) =
      (n.children.flatMap fun c => (ways c.node).map (c :: ·)).map (n.callAt p phase) := by
  rw [List.filter_flatMap, List.map_flatMap]
  refine List.flatMap_congr fun c hc => ?_
  rw [h c hc, List.map_map]
  exact List.map_congr_left fun way _ => (callAt_cons n p phase c way).symm

/-- The nodes of a tree are entered in preorder. -/
theorem entered_tour (n : Node) (p : Position) :
    (n.tour p).filter (·.phase = .entering) = n.preorder.map (n.callAt p .entering) := by
  induction n using of_children generalizing p with
  | h n ih =>
    rw [tour_eq, preorder_eq, List.filter_append, List.filter_cons_of_pos rfl,
      List.filter_cons_of_neg (by simp), List.filter_nil, List.append_nil, List.map_cons,
      callAt_nil, filter_below ih]

/-- The nodes of a tree are left in postorder. -/
theorem left_tour (n : Node) (p : Position) :
    (n.tour p).filter (·.phase = .leaving) = n.postorder.map (n.callAt p .leaving) := by
  induction n using of_children generalizing p with
  | h n ih =>
    rw [tour_eq, postorder_eq, List.filter_append, List.filter_cons_of_neg (by simp),
      List.filter_cons_of_pos rfl, List.filter_nil, List.map_append, List.map_singleton,
      callAt_nil, filter_below ih]

theorem filter_tour_perm (n : Node) (p : Position) (phase : Phase) :
    ((n.tour p).filter (·.phase = phase)).Perm (n.preorder.map (n.callAt p phase)) := by
  cases phase with
  | entering => rw [entered_tour]
  | leaving =>
    rw [left_tour]
    exact (postorder_perm n).map _

theorem mem_tour {n : Node} {p : Position} {call : Call} (h : call ∈ n.tour p) :
    ∃ way, n.Descends way call.node ∧ call.position = p.along n way := by
  have hphase : call ∈ (n.tour p).filter (·.phase = call.phase) :=
    List.mem_filter.mpr ⟨h, decide_eq_true rfl⟩
  obtain ⟨way, hway, hcall⟩ := List.mem_map.mp ((filter_tour_perm n p _).mem_iff.mp hphase)
  obtain ⟨m, hm⟩ := mem_preorder.mp hway
  rw [← hcall]
  refine ⟨way, ?_, rfl⟩
  show n.Descends way (n.endOf way)
  rwa [hm.endOf]

/-- Different ways from a root have different positions. -/
theorem nodup_paths (root : Node) :
    (root.preorder.map fun way => (Position.root.along root way).path).Nodup := by
  refine (nodup_preorder root).map_on fun way hway way' hway' hpath => ?_
  obtain ⟨m, hm⟩ := mem_preorder.mp hway
  obtain ⟨m', hm'⟩ := mem_preorder.mp hway'
  exact hm.eq_of_path hm' (congrArg Path.segments hpath)

theorem nodup_calls (root : Node) (phase : Phase) :
    (root.preorder.map (root.callAt .root phase)).Nodup := by
  refine List.Nodup.of_map (·.position.path) ?_
  rw [List.map_map]
  exact nodup_paths root

/-- What there is to say of the calls for a tree. -/
structure Toured (root : Node) (calls : List Call) : Prop where
  entered : calls.filter (·.phase = .entering) = root.preorder.map (root.callAt .root .entering)
  left : calls.filter (·.phase = .leaving) = root.postorder.map (root.callAt .root .leaving)
  /-- Each node that can be reached is entered once and left once at the end of its way. -/
  once : ∀ way m, root.Descends way m → ∀ phase,
    calls.count ⟨phase, m, Position.root.along root way⟩ = 1
  /-- There are no other calls, and the path of each one leads to its node. -/
  placed : ∀ call ∈ calls, ∃ way, root.Descends way call.node ∧
    call.position = Position.root.along root way ∧
    root.resolve call.position.path.segments = some call.node
  distinct : ((calls.filter (·.phase = .entering)).map (·.position.path)).Nodup

theorem toured_tour (root : Node) : root.Toured (root.tour .root) where
  entered := entered_tour root .root
  left := left_tour root .root
  once := by
    intro way m hway phase
    have hcall : root.callAt .root phase way = ⟨phase, m, Position.root.along root way⟩ := by
      rw [callAt, hway.endOf]
    rw [← hcall, ← List.count_filter (p := (·.phase = phase)) (decide_eq_true rfl),
      (filter_tour_perm root .root phase).count_eq]
    exact List.count_eq_one_of_mem (nodup_calls root phase)
      (List.mem_map_of_mem (mem_preorder.mpr ⟨m, hway⟩))
  placed := by
    intro call hcall
    obtain ⟨way, hway, hposition⟩ := mem_tour hcall
    refine ⟨way, hway, hposition, ?_⟩
    rw [hposition]
    exact hway.resolve
  distinct := by
    rw [entered_tour, List.map_map]
    exact nodup_paths root

end Node

/-! ## Walks -/

/-- A visitor that always goes on. -/
structure Visitor.GoesOn (v : Visitor γ σ) : Prop where
  enter : ∀ n position c s, (v.enter n position c s).signal = .ok .next
  leave : ∀ n position c s, (v.leave n position c s).signal = .ok .next

section Walks
variable {v : Visitor γ σ}

theorem passes_tour (parent : Node) (position : Position) (children : List Child)
    (h : ∀ child ∈ children, ∀ position c s log, ∃ c' s',
      v.recorded.Gives child.node position c (s, log)
        ⟨.ok .kept, none, c', (s', log ++ child.node.tour position)⟩)
    (c : γ) (s : σ) (log : List Call) :
    ∃ c' s', v.recorded.Passes parent position children c (s, log)
      ⟨.ok (children.map (some ·.node)), false, none, c',
        (s', log ++ children.flatMap fun d => d.node.tour (position.child parent d.key))⟩ := by
  induction children generalizing c s log with
  | nil =>
    refine ⟨c, s, ?_⟩
    rw [List.flatMap_nil, List.append_nil]
    exact .nil
  | cons child children ih =>
    obtain ⟨c', s', hfirst⟩ := h child List.mem_cons_self (position.child parent child.key) c s log
    obtain ⟨c'', s'', hrest⟩ := ih (fun other hother => h other (List.mem_cons_of_mem _ hother))
      c' s' (log ++ child.node.tour (position.child parent child.key))
    refine ⟨c'', s'', ?_⟩
    rw [List.flatMap_cons, ← List.append_assoc]
    exact .cons hfirst rfl rfl hrest

theorem conclude_tour (hv : v.GoesOn) (n : Node) (position : Position)
    (entries : List (Option Node)) (c : γ) (s : σ) (log : List Call) :
    Passage.conclude v.recorded n n false position ⟨.ok entries, false, none, c, (s, log)⟩ =
      ⟨.ok .kept, none, (v.leave n position c s).context,
        ((v.leave n position c s).state, log ++ [⟨.leaving, n, position⟩])⟩ := by
  show leaveNode v.recorded n n .kept position c (s, log) = _
  have hsignal : (v.recorded.leave n position c (s, log)).signal = .ok .next :=
    hv.leave n position c s
  rw [leaveNode_ok rfl hsignal]
  rfl

theorem gives_tour (hv : v.GoesOn) (n : Node) :
    ∀ position c s log, ∃ c' s', v.recorded.Gives n position c (s, log)
      ⟨.ok .kept, none, c', (s', log ++ n.tour position)⟩ := by
  induction n using Node.of_children with
  | h n ih =>
    intro position c s log
    obtain ⟨c', s', hpasses⟩ := passes_tour n position n.children ih
      (v.enter n position c s).context (v.enter n position c s).state
      (log ++ [⟨.entering, n, position⟩])
    have hgives := Visitor.Gives.descend (v := v.recorded) (s := (s, log)) rfl
      (hv.enter n position c s) rfl hpasses
    rw [conclude_tour hv, List.append_assoc, List.append_assoc] at hgives
    rw [n.tour_eq]
    exact ⟨_, _, hgives⟩

end Walks

/-- A walk with a visitor that always goes on is a tour: every node that can be reached from
the root is entered once, in preorder, and left once, in postorder. Both times its path is the
keys on the way to it, by which it is found from the root, its ancestors are the nodes on the
way, and no other node has its path. -/
theorem tour_of_goesOn {v : Visitor γ σ} (h : v.GoesOn) (root : Node) (c : γ) (s : σ) :
    ∃ a, v.recorded.Ends root c (s, []) a ∧ a.outcome = .ok .kept ∧
      a.state.2 = root.tour .root ∧ root.Toured a.state.2 := by
  obtain ⟨c', s', hgives⟩ := gives_tour h root .root c s []
  exact ⟨_, hgives.ends, rfl, rfl, root.toured_tour⟩

/-- Counts the nodes that it enters. -/
def counting : Visitor Unit Nat where
  enter _ _ c s := ⟨.ok .next, c, s + 1⟩
  leave _ _ c s := ⟨.ok .next, c, s⟩

/-- A field `x: a` in a selection set: both the field and the names in it have positions of
their own. -/
theorem tour_of_goesOn_counting :
    let root := Node.selectionSet ⟨[.field ⟨some ⟨"x"⟩, ⟨"a"⟩, [], [], none⟩]⟩
    counting.GoesOn ∧ ∃ a, counting.recorded.Ends root () (0, []) a ∧
      a.outcome = .ok .kept ∧ a.state.2 = root.tour .root ∧ root.Toured a.state.2 := by
  intro root
  have hgoes : counting.GoesOn := ⟨fun _ _ _ _ => rfl, fun _ _ _ _ => rfl⟩
  exact ⟨hgoes, tour_of_goesOn hgoes root () 0⟩

end QueryDoc
