import QueryDoc.Proofs.Visit.Legal

/-! Edits and the rules that rebuilding does not look after. Nothing checks the name of a
fragment where it is put into a spread or a definition, and nothing keeps a document from
losing its last definition, so it is up to a visitor to put no name `on` there and to leave a
definition. A walk of a document with such a visitor gives a document that follows the
rules. -/
namespace QueryDoc

variable {γ σ : Type} {v : Visitor γ σ}

/-! ## Names of fragments -/

namespace Node

/-- The name of the fragment that a node spreads or defines. -/
def fragmentName? : Node → Option Name
  | .fragmentSpread s => some s.name
  | .fragmentDefinition f => some f.name
  | _ => none

/-- No fragment has the name `on`, which would be read as the start of a type condition. -/
def NotOn (n : Node) : Prop := n.fragmentName? ≠ some ⟨"on"⟩

theorem notOn_of_lawful {n : Node} (h : n.Lawful) : n.NotOn := by
  match n with
  | .fragmentSpread s | .fragmentDefinition f =>
    intro hname
    exact h (congrArg Name.text (Option.some.inj hname))
  | .document _ | .operationDefinition _ | .variableDefinition _ | .selectionSet _ | .field _
  | .inlineFragment _ | .argument _ | .directive _ | .variable _ | .name _ | .namedType _
  | .typeRef _ | .value _ | .objectField _ => exact nofun

theorem permits_notOn : Permits NotOn where
  ofName _ := nofun
  ofVariable _ := nofun
  ofNamedType _ := nofun

variable {n m : Node} {entries : List (Option Node)} {x : Name}

theorem child_of_fragmentName (h : n.fragmentName? = some x) :
    ∃ c ∈ n.children, c.node = .name x := by
  match n with
  | .fragmentSpread s | .fragmentDefinition f =>
    cases h
    exact ⟨_, List.mem_cons_self, rfl⟩

theorem not_name_of_directives {c : Child} {y : Name} {ds : List Directive}
    (hc : c ∈ Child.list .directives (ds.map IsNode.toNode)) : c.node ≠ .name y := by
  obtain ⟨d, -, hd⟩ := List.mem_map.mp (Child.mem_listFrom hc)
  rw [← hd]
  exact nofun

/-- It is the only name among the children. -/
theorem fragmentName_of_child {c : Child} {y : Name} (h : n.fragmentName? = some x)
    (hc : c ∈ n.children) (hy : c.node = .name y) : y = x := by
  match n with
  | .fragmentSpread s =>
    cases h
    rcases List.mem_append.mp hc with hc | hc
    · rw [Child.node_of_mem_single hc] at hy
      cases hy
      rfl
    · exact absurd hy (not_name_of_directives hc)
  | .fragmentDefinition f =>
    cases h
    rcases List.mem_append.mp hc with hc | hc
    · rcases List.mem_append.mp hc with hc | hc
      · rcases List.mem_append.mp hc with hc | hc
        · rw [Child.node_of_mem_single hc] at hy
          cases hy
          rfl
        · rw [Child.node_of_mem_single hc] at hy
          cases hy
      · exact absurd hy (not_name_of_directives hc)
    · rw [Child.node_of_mem_single hc] at hy
      cases hy

theorem eq_name_of_plain (h : n.plain = .name x) : n = .name x := by
  match n with
  | .value v => cases v <;> cases h
  | .typeRef t => cases t <;> cases h
  | .document _ | .operationDefinition _ | .fragmentDefinition _ | .variableDefinition _
  | .selectionSet _ | .field _ | .fragmentSpread _ | .inlineFragment _ | .argument _
  | .directive _ | .variable _ | .name _ | .namedType _ | .objectField _ => exact h

theorem isSome_fragmentName (h : m.shape = n.shape) :
    m.fragmentName?.isSome = n.fragmentName?.isSome := by
  cases m <;> cases n <;> first | rfl | cases h

/-- A rebuilt fragment has the name that is among the entries. -/
theorem fragmentName_refill (h : n.refill entries = .ok m) (hname : m.fragmentName? = some x) :
    n.fragmentName?.isSome ∧ some (.name x) ∈ entries := by
  constructor
  · rw [← isSome_fragmentName (shape_refill h), hname]
    rfl
  · obtain ⟨c, hc, hnode⟩ := child_of_fragmentName hname
    obtain ⟨k, hk, hplain⟩ := child_of_refill h hc
    rwa [eq_name_of_plain (hplain.symm.trans hnode)] at hk

theorem name_refill (h : n.refill entries = .ok (.name x)) : n = .name x := by
  have hshape := shape_refill h
  cases n with
  | name y =>
    cases h
    rfl
  | _ => cases hshape

theorem document_refill {d : Document} (h : (document d).refill entries = .ok m) :
    ∃ d', m = .document d' := by
  have hshape := shape_refill h
  cases m with
  | document d' => exact ⟨d', rfl⟩
  | _ => cases hshape

end Node

/-! ## Places in a document -/

namespace Child

theorem key_listFrom (keys : List Segment) (j : Nat) (ns : List Node) {i : Nat}
    (hi : i < (listFrom keys j ns).length) :
    (listFrom keys j ns)[i].key = keys ++ [.index (j + i)] := by
  induction ns generalizing i j with
  | nil => cases hi
  | cons n ns ih =>
    cases i with
    | zero => rfl
    | succ i =>
      have hi' : i < (listFrom keys (j + 1) ns).length := Nat.lt_of_succ_lt_succ hi
      have hsame : j + 1 + i = j + (i + 1) := by omega
      rw [← hsame]
      exact ih (j + 1) hi'

end Child

namespace Position

/-- The parent of what is at the position spreads or defines a fragment. -/
def InFragment (p : Position) : Prop :=
  ∃ n, p.parent? = some n ∧ n.fragmentName?.isSome

theorem parent_child (p : Position) (n : Node) (key : List Segment) :
    (p.child n key).parent? = some n :=
  List.getLast?_concat

theorem child_ne_root (p : Position) (n : Node) (key : List Segment) :
    p.child n key ≠ .root := by
  intro h
  exact ancestors_child_ne p n key (congrArg ancestors h)

end Position

namespace Document

/-- The position of a definition in a document that is the root. -/
def place (d : Document) (i : Nat) : Position := Position.root.child (.document d) [.index i]

/-- A document without definitions comes of another one where all of them are gone. -/
theorem gone_of_emptied {d d' : Document} {left : Position → Node → Prop}
    {gone : Position → Prop} {entries : List (Option Node)}
    (hsettled : SettledBelow left gone .root (.document d) (Node.document d).children entries)
    (hrefill : (Node.document d).refill entries = .ok (.document d'))
    (hempty : d'.definitions = []) : ∀ i < d.definitions.length, gone (d.place i) := by
  intro i hi
  have hchild : i < (Node.document d).children.length := by
    simpa only [Node.children, Child.members, Child.length_listFrom, List.length_map] using hi
  have hlength := List.Forall₂.length_eq hsettled
  have hentry : i < entries.length := hlength ▸ hchild
  have hnone : entries[i] = none := by
    have hchildren := Node.children_refill hrefill
    rw [hlength, List.take_length] at hchildren
    have hdeleted := List.filterMap_eq_nil_iff.mp
      (hchildren.symm.trans (by simp only [Node.children, hempty]; rfl))
    exact Option.map_eq_none_iff.mp (hdeleted _ (List.getElem_mem hentry))
  have hthere := List.Forall₂.get hsettled hchild hentry
  simp only [List.get_eq_getElem, hnone] at hthere
  have hkey : (Node.document d).children[i].key = [.index i] :=
    (Child.key_listFrom [] 0 (d.definitions.map IsNode.toNode) hchild).trans
      (by rw [Nat.zero_add, List.nil_append])
  rw [hkey] at hthere
  exact hthere

/-- What a walk of a document may find at a position. -/
structure Finds (d : Document) (p : Position) (n : Node) : Prop where
  notOn : n.Throughout Node.NotOn
  name : p.InFragment → n ≠ .name ⟨"on"⟩
  root : p = .root → n = .document d

/-- What it may leave there. -/
structure Leaves (d : Document) (gone : Position → Prop) (p : Position) (n : Node) : Prop where
  notOn : n.Throughout Node.NotOn
  name : p.InFragment → n ≠ .name ⟨"on"⟩
  root : p = .root → ∃ d', n = .document d' ∧
    (d'.definitions = [] → ∀ i < d.definitions.length, gone (d.place i))

variable {d : Document} {gone : Position → Prop} {p : Position} {n m : Node}

theorem Finds.child {c : Child} (h : d.Finds p n) (hc : c ∈ n.children) :
    d.Finds (p.child n c.key) c.node where
  notOn := h.notOn.child hc
  name := by
    rintro ⟨parent, hparent, hfragment⟩ hname
    rw [Position.parent_child] at hparent
    cases hparent
    obtain ⟨x, hx⟩ := Option.isSome_iff_exists.mp hfragment
    obtain rfl := Node.fragmentName_of_child hx hc hname
    exact h.notOn.here hx
  root hroot := absurd hroot (p.child_ne_root n c.key)

theorem Finds.leaves (h : d.Finds p n) : d.Leaves gone p n where
  notOn := h.notOn
  name := h.name
  root hroot := by
    refine ⟨d, h.root hroot, fun hempty i hi => ?_⟩
    rw [hempty] at hi
    cases hi

theorem Finds.refill {entries : List (Option Node)} (h : d.Finds p n)
    (hsettled : SettledBelow (d.Leaves gone) gone p n n.children entries)
    (hrefill : n.refill entries = .ok m) : d.Leaves gone p m where
  notOn := by
    have hnotOn : m.NotOn := by
      intro hname
      obtain ⟨hfragment, hon⟩ := Node.fragmentName_refill hrefill hname
      obtain ⟨c, -, hleft⟩ := left_of_mem hsettled hon
      exact hleft.name ⟨n, Position.parent_child p n c.key, hfragment⟩ rfl
    refine Node.throughout_refill Node.permits_notOn hrefill hnotOn fun k hk => ?_
    obtain ⟨c, -, hleft⟩ := left_of_mem hsettled hk
    exact hleft.notOn
  name := by
    rintro hp rfl
    exact h.name hp (Node.name_refill hrefill)
  root := by
    rintro rfl
    obtain rfl := h.root rfl
    obtain ⟨d', rfl⟩ := Node.document_refill hrefill
    exact ⟨d', rfl, gone_of_emptied hsettled hrefill⟩

end Document

/-! ## Edits -/

section Edits
variable {d : Document} {log : List Event}

/-- The calls in a log put no fragment in a tree that has the name `on`, neither as a whole nor
by its name, and nothing in the place of the root. -/
structure Tame (log : List Event) : Prop where
  notOn : ∀ ev ∈ log, ∀ r, ev.Puts r → r.Throughout Node.NotOn
  name : ∀ ev ∈ log, ev.call.position.InFragment → ¬ ev.Puts (.name ⟨"on"⟩)
  root : ∀ ev ∈ log, ev.call.position = .root → ∀ r, ¬ ev.Puts r

theorem Tame.finds (h : Tame log) :
    ∀ ev ∈ log, ∀ r, ev.Puts r → d.Finds ev.call.position r := by
  intro ev hev r hputs
  refine ⟨h.notOn ev hev r hputs, ?_, fun hroot => absurd hputs (h.root ev hev hroot r)⟩
  rintro hfragment rfl
  exact h.name ev hev hfragment hputs

theorem Tame.keeps (h : Tame log) (v : Visitor γ σ) (d : Document) :
    Keeps v.logged (fun s => ∀ ev ∈ s.2, ev ∈ log) d.Finds
      (d.Leaves fun p => ∃ ev ∈ log, ev.Deletes ∧ ev.call.position = p)
      fun p => ∃ ev ∈ log, ev.Deletes ∧ ev.call.position = p where
  enter := Hook.obeys_logged h.finds fun ev hev hdeletes => ⟨ev, hev, hdeletes, rfl⟩
  leave := Hook.obeys_logged (fun ev hev r hputs => (h.finds ev hev r hputs).leaves)
    fun ev hev hdeletes => ⟨ev, hev, hdeletes, rfl⟩
  child := Document.Finds.child
  kept := Document.Finds.leaves
  refilled := Document.Finds.refill

/-- A walk of a document in which no fragment has the name `on` leaves such a document, with a
definition, if what its visitor puts there follows the rules where it is put, nothing is put in
the place of the root, and some definition is not deleted. -/
theorem edits_document {c : γ} {s : σ} {a : Answer γ σ} {fate : Fate} {n : Node}
    (hd : (Node.document d).Throughout Node.NotOn)
    (hends : v.EndsWith (.document d) c s a log) (htame : Tame log)
    (hsome : ∃ i < d.definitions.length, ∀ ev ∈ log, ev.call.position = d.place i → ¬ ev.Deletes)
    (houtcome : a.outcome = .ok fate) (hn : fate.node? (.document d) = some n) :
    ∃ d', n = .document d' ∧ d'.definitions ≠ [] ∧ n.Throughout Node.NotOn := by
  have hfound : d.Finds .root (.document d) :=
    ⟨hd, fun hfragment => absurd hfragment nofun, fun _ => rfl⟩
  have hleft := (htame.keeps v d).ends hfound hends (fun _ hev => hev) houtcome hn
  obtain ⟨d', rfl, hempty⟩ := hleft.root rfl
  refine ⟨d', rfl, fun hnone => ?_, hleft.notOn⟩
  obtain ⟨i, hi, hkept⟩ := hsome
  obtain ⟨ev, hev, hdeletes, hposition⟩ := hempty hnone i hi
  exact hkept ev hev hposition hdeletes

end Edits

/-- A query that spreads a fragment. -/
def spreading (label : String) : Document :=
  ⟨[.operation ⟨.query, none, [], [], ⟨[.fragmentSpread ⟨⟨label⟩, []⟩]⟩⟩]⟩

theorem valid_spreading {label : String} (h : Name.Valid ⟨label⟩) (hon : label ≠ "on") :
    (Node.document (spreading label)).Valid := by
  refine ⟨List.cons_ne_nil _ _, fun x hx => ?_⟩
  rw [List.mem_singleton.mp hx]
  exact ⟨nofun, nofun, nofun, List.cons_ne_nil _ _, ⟨h, hon, nofun⟩, trivial⟩

theorem inside_spreading (label : String) :
    (Node.fragmentSpread ⟨⟨label⟩, []⟩).Inside (.document (spreading label)) := by
  refine .deeper (List.mem_singleton_self _) (.deeper (List.mem_singleton_self _) ?_)
  exact .deeper (List.mem_singleton_self _) (.self _)

/-- Calls the fragment `F` by another name. -/
def renameF (label : String) : Visitor Unit Unit where
  enter n p c s :=
    let here := p ≠ .root ∧ n = .name ⟨"F"⟩
    ⟨.ok (if here then .edit (.replace (.name ⟨label⟩)) else .next), c, s⟩
  leave := Hook.idle

theorem calls_renameF {label : String} {root : Node} {a : Answer Unit Unit} {log : List Event}
    (h : (renameF label).EndsWith root () () a log) :
    ∀ ev ∈ log, ¬ ev.Deletes ∧
      ∀ r, ev.Puts r → r = .name ⟨label⟩ ∧ ev.call.position ≠ .root := by
  refine h.forall_log (Q := fun ev => ¬ ev.Deletes ∧
    ∀ r, ev.Puts r → r = .name ⟨label⟩ ∧ ev.call.position ≠ .root) ?_ ?_
  · intro n p c s
    simp only [renameF, Event.Deletes, Event.Puts]
    split
    · rename_i here
      constructor
      · intro h
        cases h
      · rintro r ⟨e, h, he⟩
        cases h
        rcases he with he | he <;> cases he
        exact ⟨rfl, here.1⟩
    · constructor
      · intro h
        cases h
      · rintro r ⟨e, h, -⟩
        cases h
  · intro n p c s
    constructor
    · intro h
      cases h
    · rintro r ⟨e, h, -⟩
      cases h

theorem valid_name_F : Name.Valid ⟨"F"⟩ := rfl

theorem edits_document_renameF :
    ∃ a log, (renameF "G").EndsWith (.document (spreading "F")) () () a log ∧ Tame log ∧
      a.outcome = .ok (.changed (.document (spreading "G"))) ∧
      (Node.document (spreading "G")).Throughout Node.NotOn := by
  have hrun : (visit 20 (renameF "G") (.document (spreading "F")) () ()).map (·.outcome) =
      some (.ok (.changed (.document (spreading "G")))) := by
    decide +kernel
  obtain ⟨a, ha, houtcome⟩ := Option.map_eq_some_iff.mp hrun
  obtain ⟨log, hlog⟩ := Visitor.ends_iff_endsWith.mp ⟨20, ha⟩
  have hcalls := calls_renameF hlog
  have htame : Tame log := by
    constructor
    · intro ev hev r hputs
      rw [((hcalls ev hev).2 r hputs).1]
      exact Node.throughout_iff.mpr ⟨nofun, nofun⟩
    · intro ev hev _ hputs
      exact absurd ((hcalls ev hev).2 _ hputs).1 (by decide)
    · intro ev hev hroot r hputs
      exact ((hcalls ev hev).2 r hputs).2 hroot
  have hd : (Node.document (spreading "F")).Throughout Node.NotOn :=
    ((Node.valid_iff_throughout _).mp (valid_spreading valid_name_F (by decide))).mono
      fun _ => Node.notOn_of_lawful
  obtain ⟨d', -, -, hresult⟩ := edits_document hd hlog htame
    ⟨0, by decide, fun ev hev _ => (hcalls ev hev).1⟩ houtcome rfl
  exact ⟨a, log, hlog, htame, houtcome, hresult⟩

/-- With the name `on` for its fragment the same walk goes through as well, and so does one that
deletes the only operation. -/
theorem edits_document_unruly :
    let dropAll := Visitor.entering fun n =>
      if n.shape = .operation then .edit .delete else .next
    (Node.document (spreading "F")).Valid ∧ (Node.name ⟨"on"⟩).Valid ∧
    (visit 20 (renameF "on") (.document (spreading "F")) () ()).map (·.outcome) =
      some (.ok (.changed (.document (spreading "on")))) ∧
    ¬ (Node.document (spreading "on")).Throughout Node.NotOn ∧
    (visit 20 dropAll (.document (spreading "F")) () ()).map (·.outcome) =
      some (.ok (.changed (.document ⟨[]⟩))) := by
  have hon : ¬ (Node.document (spreading "on")).Throughout Node.NotOn :=
    fun h => h _ (inside_spreading "on") rfl
  exact ⟨valid_spreading valid_name_F (by decide), rfl, by decide +kernel, hon, by decide +kernel⟩

end QueryDoc
