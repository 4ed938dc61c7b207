import QueryDoc.Proofs.Visit.Refinement

/-! Walks that end. With a larger bound on its depth a walk by recursion keeps the answer
that it has, so what a walk ends with does not depend on any bound. -/
namespace QueryDoc

variable {γ σ : Type}

/-- A walk has the answers of another one wherever that has any. -/
def Extends (w' w : Node → Position → γ → σ → Option (Answer γ σ)) : Prop :=
  ∀ n position context state a,
    w n position context state = some a → w' n position context state = some a

theorem walkChildren_extends {w' w : Node → Position → γ → σ → Option (Answer γ σ)}
    (hw : Extends w' w) (parent : Node) (position : Position) :
    ∀ (children : List Child) (context : γ) (state : σ) (p : Passage γ σ),
      walkChildren w parent position children context state = some p →
      walkChildren w' parent position children context state = some p := by
  intro children
  induction children with
  | nil =>
    intro context state p h
    exact h
  | cons c cs ih =>
    intro context state p h
    cases walkChildren_proceeds h with
    | error hfirst houtcome =>
      exact walkChildren_error parent position (hw _ _ _ _ _ hfirst) houtcome cs
    | stop hfirst houtcome hstop =>
      exact walkChildren_stop parent position (hw _ _ _ _ _ hfirst) houtcome hstop cs
    | next hfirst houtcome hstop hothers =>
      rw [walkChildren_next parent position (hw _ _ _ _ _ hfirst) houtcome hstop,
        ih _ _ _ hothers]
      rfl

theorem walk_succ (v : Visitor γ σ) (depth : Nat) :
    Extends (walk v (depth + 1)) (walk v depth) := by
  induction depth with
  | zero =>
    intro n position context state a h
    cases h
  | succ depth ih =>
    intro n position context state a h
    rw [walk] at h ⊢
    split at h
    · exact h
    · split at h
      · exact h
      · exact h
      · rw [walkBelow_eq, Option.map_eq_some_iff] at h
        obtain ⟨p, hp, ha⟩ := h
        rw [walkBelow_eq, walkChildren_extends ih _ _ _ _ _ p hp]
        exact congrArg some ha

theorem walk_le (v : Visitor γ σ) {depth larger : Nat} (h : depth ≤ larger) :
    Extends (walk v larger) (walk v depth) := by
  induction h with
  | refl =>
    intro n position context state a ha
    exact ha
  | step _ ih =>
    intro n position context state a ha
    exact walk_succ v _ n position context state a (ih n position context state a ha)

/-- Two bounds under which a walk has an answer give the same one. -/
theorem walk_unique {v : Visitor γ σ} {depth depth' : Nat} {n : Node} {position : Position}
    {context : γ} {state : σ} {a a' : Answer γ σ}
    (h : walk v depth n position context state = some a)
    (h' : walk v depth' n position context state = some a') : a = a' := by
  have hmax := walk_le v (Nat.le_max_left depth depth') _ _ _ _ _ h
  have hmax' := walk_le v (Nat.le_max_right depth depth') _ _ _ _ _ h'
  exact Option.some.inj (hmax.symm.trans hmax')

/-- What a visitor's walk of a tree ends with. -/
def Visitor.Ends (v : Visitor γ σ) (root : Node) (context : γ) (state : σ)
    (a : Answer γ σ) : Prop :=
  ∃ steps, visit steps v root context state = some a

theorem Visitor.ends_iff {v : Visitor γ σ} {root : Node} {context : γ} {state : σ}
    {a : Answer γ σ} :
    v.Ends root context state a ↔ ∃ depth, walk v depth root .root context state = some a :=
  visit_iff_walk v root context state a

/-- The walks of a tree with two visitors end in related ways: wherever one of them ends, so
does the other. -/
def Visitor.EndAlike {Γ τ : Type} (same : Answer γ σ → Answer Γ τ → Prop) (root : Node)
    (v : Visitor γ σ) (context : γ) (state : σ) (w : Visitor Γ τ) (context' : Γ) (state' : τ) :
    Prop :=
  (∀ a, v.Ends root context state a → ∃ b, w.Ends root context' state' b ∧ same a b) ∧
  (∀ b, w.Ends root context' state' b → ∃ a, v.Ends root context state a ∧ same a b)

namespace Visitor.EndAlike

variable {γ' γ'' τ υ : Type} {same same' : Answer γ σ → Answer γ' τ → Prop} {root : Node}
variable {v : Visitor γ σ} {c : γ} {s : σ} {w : Visitor γ' τ} {c' : γ'} {t : τ}

theorem imp (h : v.EndAlike same root c s w c' t) (himp : ∀ a b, same a b → same' a b) :
    v.EndAlike same' root c s w c' t := by
  constructor
  · intro a ha
    obtain ⟨b, hb, hab⟩ := h.1 a ha
    exact ⟨b, hb, himp a b hab⟩
  · intro b hb
    obtain ⟨a, ha, hab⟩ := h.2 b hb
    exact ⟨a, ha, himp a b hab⟩

theorem symm (h : v.EndAlike same root c s w c' t) :
    w.EndAlike (fun b a => same a b) root c' t v c s :=
  ⟨h.2, h.1⟩

theorem trans {next : Answer γ' τ → Answer γ'' υ → Prop} {u : Visitor γ'' υ} {c'' : γ''}
    {r : υ} (h : v.EndAlike same root c s w c' t) (h' : w.EndAlike next root c' t u c'' r) :
    v.EndAlike (fun a d => ∃ b, same a b ∧ next b d) root c s u c'' r := by
  constructor
  · intro a ha
    obtain ⟨b, hb, hab⟩ := h.1 a ha
    obtain ⟨d, hd, hbd⟩ := h'.1 b hb
    exact ⟨d, hd, b, hab, hbd⟩
  · intro d hd
    obtain ⟨b, hb, hbd⟩ := h'.2 d hd
    obtain ⟨a, ha, hab⟩ := h.2 b hb
    exact ⟨a, ha, b, hab, hbd⟩

end Visitor.EndAlike

namespace Visitor

/-! ## Walks to any depth -/

/-- What a walk of a node comes to, however deep it goes. -/
def Gives (v : Visitor γ σ) (n : Node) (position : Position) (c : γ) (s : σ)
    (a : Answer γ σ) : Prop :=
  ∃ depth, walk v depth n position c s = some a

/-- What the walks of children come to, one after the other. -/
def Passes (v : Visitor γ σ) (parent : Node) (position : Position) (children : List Child)
    (c : γ) (s : σ) (p : Passage γ σ) : Prop :=
  ∃ depth, walkChildren (walk v depth) parent position children c s = some p

section Rules
variable {v : Visitor γ σ} {n parent : Node} {position : Position} {c : γ} {s : σ}
variable {first : Answer γ σ} {p : Passage γ σ} {child : Child} {cs : List Child}

theorem Passes.nil : v.Passes parent position [] c s ⟨.ok [], false, none, c, s⟩ :=
  ⟨0, rfl⟩

theorem Passes.error {e : Error}
    (h : v.Gives child.node (position.child parent child.key) c s first)
    (houtcome : first.outcome = .error e) :
    v.Passes parent position (child :: cs) c s
      ⟨.error e, true, first.stopDepth, first.context, first.state⟩ := by
  obtain ⟨depth, h⟩ := h
  exact ⟨depth, walkChildren_error parent position h houtcome cs⟩

theorem Passes.stop {fate : Fate} {d : Nat}
    (h : v.Gives child.node (position.child parent child.key) c s first)
    (houtcome : first.outcome = .ok fate) (hstop : first.stopDepth = some d) :
    v.Passes parent position (child :: cs) c s
      ⟨.ok (fate.node? child.node :: cs.map (some ·.node)), fate.isEdit, some d,
        first.context, first.state⟩ := by
  obtain ⟨depth, h⟩ := h
  exact ⟨depth, walkChildren_stop parent position h houtcome hstop cs⟩

theorem Passes.cons {fate : Fate}
    (h : v.Gives child.node (position.child parent child.key) c s first)
    (houtcome : first.outcome = .ok fate) (hstop : first.stopDepth = none)
    (hrest : v.Passes parent position cs first.context first.state p) :
    v.Passes parent position (child :: cs) c s (p.after child.node fate) := by
  obtain ⟨depth, h⟩ := h
  obtain ⟨depth', hrest⟩ := hrest
  refine ⟨max depth depth', ?_⟩
  have hfirst := walk_le v (Nat.le_max_left depth depth') _ _ _ _ _ h
  have hothers := walkChildren_extends (walk_le v (Nat.le_max_right depth depth'))
    parent position cs _ _ p hrest
  rw [walkChildren_next parent position hfirst houtcome hstop, hothers]
  rfl

theorem Gives.deleted {reply : Reply γ σ} (hreply : v.enter n position c s = reply)
    (hsignal : reply.signal = .ok (.edit .delete)) :
    v.Gives n position c s ⟨.ok .deleted, none, reply.context, reply.state⟩ :=
  ⟨1, walk_deleted hreply hsignal rfl⟩

theorem Gives.stopped {reply : Reply γ σ} (hreply : v.enter n position c s = reply)
    (hsignal : reply.signal = .ok .stop) :
    v.Gives n position c s
      ⟨.ok .kept, some position.ancestors.length, reply.context, reply.state⟩ :=
  ⟨1, walk_stopped hreply hsignal rfl⟩

theorem Gives.descend {reply : Reply γ σ} {signal : Signal} {m : Node} {changed : Bool}
    {children : List Child} (hreply : v.enter n position c s = reply)
    (hsignal : reply.signal = .ok signal) (hopening : signal.opening n = .descend m changed children)
    (h : v.Passes m position children reply.context reply.state p) :
    v.Gives n position c s (p.conclude v n m changed position) := by
  obtain ⟨depth, h⟩ := h
  refine ⟨depth + 1, ?_⟩
  rw [walk_descend hreply hsignal hopening, h]
  rfl

end Rules

theorem Gives.ends {v : Visitor γ σ} {root : Node} {c : γ} {s : σ} {a : Answer γ σ}
    (h : v.Gives root .root c s a) : v.Ends root c s a :=
  ends_iff.mpr h

end Visitor
end QueryDoc
