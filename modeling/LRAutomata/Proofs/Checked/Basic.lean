/-
  Execution that stops where a lookup fails.

  The definitions of the library are total: a number that names nothing is
  answered with a default.  The checked definitions beside them try every such
  number first, and stop with a `Panic` if it names nothing.  That a checked
  definition returns what the plain one does means that no default is used.

  * `Checked.index` and `Checked.pair` are lookups in a vector;
  * `Checked.item` looks up all that the functions on items look up.
-/
import LRAutomata.Panic
import LRAutomata.Proofs.Automaton.ItemSet

namespace LRAutomata

namespace Checked

/-! ## Lookups -/

/-- Look up an entry of a vector. -/
def index (i length : Nat) : Checked Unit :=
  if i < length then .ok () else .error (.outOfRange i length)

/-- Look up two different entries of a vector. -/
def pair (i j length : Nat) : Checked Unit :=
  if i ≠ j ∧ max i j < length then .ok () else .error (.notApart i j length)

/-- Make a lookup only on a condition. -/
def whenever (p : Prop) [Decidable p] (x : Checked Unit) : Checked Unit :=
  if p then x else .ok ()

/-- Make a lookup for a value, if there is one. -/
def forSome {α : Type} (a? : Option α) (f : α → Checked Unit) : Checked Unit :=
  a?.elim (.ok ()) f

/-- Go on with a value, if there is one. -/
def bindSome {α β : Type} (a? : Option α) (f : α → Checked (Option β)) : Checked (Option β) :=
  a?.elim (.ok none) f

@[simp] theorem index_eq_ok {i length : Nat} : index i length = .ok () ↔ i < length := by
  unfold index
  split <;> simp_all

@[simp] theorem pair_eq_ok {i j length : Nat} :
    pair i j length = .ok () ↔ i ≠ j ∧ i < length ∧ j < length := by
  unfold pair
  split <;> simp_all

@[simp] theorem whenever_eq_ok {p : Prop} [Decidable p] {x : Checked Unit} :
    whenever p x = .ok () ↔ (p → x = .ok ()) := by
  unfold whenever
  split <;> simp_all

@[simp] theorem forSome_eq_ok {α : Type} {a? : Option α} {f : α → Checked Unit} :
    forSome a? f = .ok () ↔ ∀ a, a? = some a → f a = .ok () := by
  cases a? <;> simp [forSome]

/-- What goes on with a value has a result with the property if it has one for the value. -/
theorem bindSome_eq_ok {α β : Type} {P : β → Prop} {a? : Option α} {f : α → Checked (Option β)}
    {g : α → Option β} (h : ∀ a, a? = some a → f a = .ok (g a) ∧ ∀ b, g a = some b → P b) :
    bindSome a? f = .ok (a?.bind g) ∧ ∀ b, a?.bind g = some b → P b := by
  cases a? with
  | none => exact ⟨rfl, fun _ hb => by cases hb⟩
  | some a => exact h a rfl

/-! ## Sequences of steps -/

section Sequence

variable {α β : Type}

@[simp] theorem ok_bind (a : α) (f : α → Checked β) : (Except.ok a >>= f : Checked β) = f a := rfl

@[simp] theorem pure_eq_ok (a : α) : (pure a : Checked α) = .ok a := rfl

/-- What comes after lookups is done if they all succeed. -/
@[simp] theorem seq_eq_ok {x : Checked Unit} {y : Checked β} {b : β} :
    (x >>= fun _ => y) = .ok b ↔ x = .ok () ∧ y = .ok b := by
  cases x with
  | error e => simp [bind, Except.bind]
  | ok u => simp [bind, Except.bind]

@[simp] theorem forM_eq_ok {f : α → Checked Unit} : ∀ {l : List α},
    l.forM f = .ok () ↔ ∀ a ∈ l, f a = .ok ()
  | [] => by simp
  | a :: l => by
    show (f a >>= fun _ => l.forM f) = .ok () ↔ _
    rw [seq_eq_ok, forM_eq_ok, List.forall_mem_cons]

/-- A fold that keeps a property under which its steps succeed. -/
theorem foldlM_eq_ok {P : β → Prop} {f : β → α → Checked β} {g : β → α → β} {l : List α}
    (step : ∀ b, P b → ∀ a ∈ l, f b a = .ok (g b a) ∧ P (g b a)) {b : β} (hb : P b) :
    l.foldlM f b = .ok (l.foldl g b) ∧ P (l.foldl g b) := by
  induction l generalizing b with
  | nil => exact ⟨rfl, hb⟩
  | cons a l ih =>
    obtain ⟨hstep, hP⟩ := step b hb a (by simp)
    rw [List.foldlM_cons, hstep, ok_bind, List.foldl_cons]
    exact ih (fun b hb a' ha' => step b hb a' (List.mem_cons_of_mem a ha')) hP

/-- Steps that succeed one by one on the members of a list. -/
theorem mapM_eq_ok {f : α → Checked β} {g : α → β} {l : List α} (h : ∀ a ∈ l, f a = .ok (g a)) :
    l.mapM f = .ok (l.map g) := by
  induction l with
  | nil => rfl
  | cons a l ih =>
    rw [List.mapM_cons, h a (by simp), ok_bind, ih fun b hb => h b (List.mem_cons_of_mem a hb)]
    rfl

/-- Steps on the members of a list all succeed, or one of them stops. -/
theorem mapM_eq_ok_or {P : Panic → Prop} {f : α → Checked β} {g : α → β} {l : List α}
    (h : ∀ a ∈ l, f a = .ok (g a) ∨ ∃ e, f a = .error e ∧ P e) :
    l.mapM f = .ok (l.map g) ∨ ∃ e, l.mapM f = .error e ∧ P e := by
  induction l with
  | nil => exact .inl rfl
  | cons a l ih =>
    rw [List.mapM_cons]
    obtain ha | ⟨e, ha, he⟩ := h a (by simp) <;> rw [ha]
    · obtain hl | ⟨e, hl, he⟩ := ih fun b hb => h b (List.mem_cons_of_mem a hb) <;> rw [ok_bind, hl]
      · exact .inl rfl
      · exact .inr ⟨e, rfl, he⟩
    · exact .inr ⟨e, rfl, he⟩

end Sequence

/-! ## Symbols, rules and items -/

/-- Look up a symbol. -/
def symbol (g : Grammar) (X : SymbolId) : Checked Unit :=
  index X g.symbols.size

/-- Look up a rule and the symbols on both sides of it. -/
def rule (g : Grammar) (r : RuleId) : Checked Unit := do
  index r g.rules.size
  symbol g (g.lhs r)
  (g.rhs r).forM (symbol g)

/-- Look up the rule of an item, and move the dot to the next position. -/
def item (g : Grammar) (i : Item) : Checked Unit := do
  rule g i.rule
  if i.position + 1 < positionLimit then .ok () else .error (.positionOverflow i.position)

end Checked

/-- The right-hand sides leave a position beyond their ends. -/
def Grammar.Narrow (g : Grammar) : Prop :=
  ∀ r, r < g.rules.size → (g.rhs r).length < Checked.positionLimit - 1

namespace Checked

variable {g : Grammar} {i : Item} {X : SymbolId}

theorem rule_eq_ok (wf : g.WellFormed) {r : RuleId} (hr : r < g.rules.size) : rule g r = .ok () := by
  simp only [rule, symbol, seq_eq_ok, index_eq_ok, forM_eq_ok]
  exact ⟨hr, wf.lhs_lt hr, wf.rhs_lt hr⟩

theorem item_eq_ok (wf : g.WellFormed) (narrow : g.Narrow) (hi : i.InRange g) :
    item g i = .ok () := by
  have hlt : i.position + 1 < positionLimit := by
    have := narrow i.rule hi.1
    have := hi.2
    omega
  rw [item, seq_eq_ok, if_pos hlt]
  exact ⟨rule_eq_ok wf hi.1, rfl⟩

/-- The symbol after the dot of an item exists. -/
theorem symbol_next_lt (wf : g.WellFormed) (hi : i.InRange g) (hX : i.next? g = some X) :
    X < g.symbols.size :=
  wf.rhs_lt hi.1 X (List.mem_of_getElem? hX)

end Checked

end LRAutomata
