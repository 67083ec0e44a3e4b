-- Regular expressions with embedded actions and conditions, and the machines that they are compiled to. The classes
-- of characters, the actions and the conditions have names, which a machine gives a meaning.

namespace Ragel

variable {χ α κ β σ : Type}

inductive Expr (χ α κ : Type)
  | eps
  | chars (cs : χ)
  | cat (e f : Expr χ α κ)
  | star (e : Expr χ α κ)
  | plus (e : Expr χ α κ)
  -- Every transition of the expression asks for the condition.
  | when (e : Expr χ α κ) (cond : κ)
  -- Every transition into a final state runs the action.
  | finish (e : Expr χ α κ) (act : α)

-- A transition on some character, and what is then left of the expression.
structure Arc (χ α κ : Type) where
  conds  : List κ
  acts   : List α
  target : Expr χ α κ

namespace Expr

def nullable : Expr χ α κ → Bool
  | eps        => true
  | chars _    => false
  | cat e f    => e.nullable && f.nullable
  | star _     => true
  | plus e     => e.nullable
  | when e _   => e.nullable
  | finish e _ => e.nullable

def arcs (has : χ → Bool) : Expr χ α κ → List (Arc χ α κ)
  | eps        => []
  | chars cs   => if has cs then [⟨[], [], eps⟩] else []
  | cat e f    => (e.arcs has |>.map fun t => { t with target := cat t.target f }) ++
                  if e.nullable then f.arcs has else []
  | star e     => e.arcs has |>.map fun t => { t with target := cat t.target (star e) }
  | plus e     => e.arcs has |>.map fun t => { t with target := cat t.target (star e) }
  | when e c   => e.arcs has |>.map fun t => { t with conds := c :: t.conds, target := when t.target c }
  | finish e a => e.arcs has |>.map fun t =>
                    { t with acts := if t.target.nullable then t.acts ++ [a] else t.acts, target := finish t.target a }

-- The order in which actions are embedded.
def acts : Expr χ α κ → List α
  | eps        => []
  | chars _    => []
  | cat e f    => e.acts ++ f.acts
  | star e     => e.acts
  | plus e     => e.acts
  | when e _   => e.acts
  | finish e a => e.acts ++ [a]

end Expr

structure Machine (χ α κ β σ : Type) where
  main : Expr χ α κ
  has  : χ → β → Bool
  test : κ → σ → Bool
  act  : α → β → σ → Option σ

namespace Machine

variable [DecidableEq α] (m : Machine χ α κ β σ)

-- The transitions on a character whose conditions hold before it is read.
def enabled (c : β) (es : List (Expr χ α κ)) (s : σ) : List (Arc χ α κ) :=
  es.flatMap (Expr.arcs (m.has · c)) |>.filter (·.conds.all (m.test · s))

-- All transitions are taken at once. Each of their actions runs once, in the order of embedding. No state that is
-- left is the error state.
def step (x : List (Expr χ α κ) × σ) (c : β) : Option (List (Expr χ α κ) × σ) :=
  let ts := m.enabled c x.fst x.snd
  m.main.acts.filter (fun a => ts.any (a ∈ ·.acts)) |>.foldlM (fun s a => m.act a c s) x.snd
    |>.map (ts.map (·.target), ·)

def exec (x : List (Expr χ α κ) × σ) (cs : List β) : Option (List (Expr χ α κ) × σ) :=
  cs.foldlM m.step x

def isFinal (es : List (Expr χ α κ)) : Bool :=
  es.any (·.nullable)

@[simp]
theorem exec_nil : m.exec x [] = some x :=
  rfl

@[simp]
theorem exec_cons : m.exec x (c :: cs) = (m.step x c).bind (m.exec · cs) :=
  rfl

theorem exec_append : m.exec x (cs ++ cs') = (m.exec x cs).bind (m.exec · cs') :=
  List.foldlM_append

theorem exec_snoc : m.exec x (cs ++ [c]) = (m.exec x cs).bind (m.step · c) := by
  rw [exec_append]
  cases m.exec x cs
  case none   => rfl
  case some x => simp

end Machine
end Ragel
