import Lalr.Grammar
import Mathlib.Logic.Relation
import Mathlib.Tactic.Common

/-!
# Derivations

`Rewrites` replaces one symbol of a string by the body of one of its productions, and `Derives` repeats
that.  These are the notions that the statements about tables and parsers refer to; they know nothing of
items, states or lookaheads.

The analysis of a grammar works with inductive forms of two questions about derivations: which symbols
derive the empty string (`Nullable`), and which terminals can begin what a string derives (`Starts`).
`nullable_iff_derives` and `starts_iff_derives` say that these are the right forms.  `Leads` adds one symbol
of lookahead behind the string.
-/

namespace Lalr

/-- The symbol is declared as a terminal. -/
def Kinds.IsTerminal (kinds : Kinds) (s : Symbol) : Prop :=
  kinds[s]? = some .terminal

/-- The symbol is declared as a nonterminal. -/
def Kinds.IsNonterminal (kinds : Kinds) (s : Symbol) : Prop :=
  kinds[s]? = some .nonterminal

/-- A symbol is declared when it has a kind. -/
lemma Kinds.mem_iff_exists {kinds : Kinds} {s : Symbol} : s ∈ kinds ↔ ∃ kind, kinds[s]? = some kind := by
  rw [Std.ExtTreeMap.mem_iff_isSome_getElem?, Option.isSome_iff_exists]

/-- One symbol of `u` is replaced by the body of one of its productions. -/
def Rewrites (ps : List (Symbol × Body)) (u v : Body) : Prop :=
  ∃ p ∈ ps, ∃ before after, u = before ++ p.1 :: after ∧ v = before ++ p.2 ++ after

/-- Any number of replacements leads from one string to the other. -/
def Derives (ps : List (Symbol × Body)) : Body → Body → Prop :=
  Relation.ReflTransGen (Rewrites ps)

/-- The string derives some string of terminals. -/
def Generates (ps : List (Symbol × Body)) (kinds : Kinds) (u : Body) : Prop :=
  ∃ w, Derives ps u w ∧ ∀ t ∈ w, kinds.IsTerminal t

/-- The symbol derives the empty string. -/
inductive Nullable (ps : List (Symbol × Body)) : Symbol → Prop
  /-- All the symbols of one of its bodies do. -/
  | of_production {A : Symbol} {ω : Body} (hp : (A, ω) ∈ ps) (hω : ∀ x ∈ ω, Nullable ps x) :
      Nullable ps A

/-- The terminal can begin a string derived from the given one. -/
inductive Starts (ps : List (Symbol × Body)) (kinds : Kinds) : Body → Symbol → Prop
  /-- The string begins with the terminal. -/
  | terminal {t : Symbol} {u : Body} (ht : kinds.IsTerminal t) : Starts ps kinds (t :: u) t
  /-- A body of the first symbol can begin with the terminal. -/
  | expand {A t : Symbol} {ω u : Body} (hp : (A, ω) ∈ ps) (h : Starts ps kinds ω t) :
      Starts ps kinds (A :: u) t
  /-- The first symbol derives the empty string, and the rest can begin with the terminal. -/
  | skip {x t : Symbol} {u : Body} (hx : Nullable ps x) (h : Starts ps kinds u t) :
      Starts ps kinds (x :: u) t

/-- The terminal `t` can begin what is derived from `u` with `y` behind it. -/
def Leads (ps : List (Symbol × Body)) (kinds : Kinds) (u : Body) (y t : Symbol) : Prop :=
  Starts ps kinds u t ∨ (∀ x ∈ u, Nullable ps x) ∧ t = y

variable {ps : List (Symbol × Body)} {kinds : Kinds}

/-! ### Derivations of parts and wholes -/

/-- A replacement can be made inside a longer string. -/
lemma Rewrites.append {u v : Body} (h : Rewrites ps u v) (left right : Body) :
    Rewrites ps (left ++ u ++ right) (left ++ v ++ right) := by
  obtain ⟨p, hp, before, after, rfl, rfl⟩ := h
  exact ⟨p, hp, left ++ before, after ++ right, by simp, by simp⟩

/-- A production replaces its symbol by its body. -/
lemma Rewrites.of_production {A : Symbol} {ω : Body} (hp : (A, ω) ∈ ps) : Rewrites ps [A] ω :=
  ⟨(A, ω), hp, [], [], by simp, by simp⟩

/-- A single symbol is replaced by its bodies only. -/
lemma rewrites_singleton_iff {A : Symbol} {v : Body} : Rewrites ps [A] v ↔ (A, v) ∈ ps := by
  refine ⟨?_, Rewrites.of_production⟩
  rintro ⟨⟨B, ω⟩, hp, before, after, hsplit, rfl⟩
  obtain ⟨rfl, hcons⟩ : before = [] ∧ B :: after = [A] := by
    cases before <;> simp_all
  obtain ⟨rfl, rfl⟩ := List.cons.inj hcons
  simpa using hp

/-- A derivation can be made inside a longer string. -/
lemma Derives.inside {u v : Body} (h : Derives ps u v) (left right : Body) :
    Derives ps (left ++ u ++ right) (left ++ v ++ right) := by
  induction h with
  | refl => exact .refl
  | tail _ hs ih => exact ih.tail (hs.append left right)

/-- Derivations of two strings derive the joined strings. -/
lemma Derives.append {u u' v v' : Body} (hu : Derives ps u u') (hv : Derives ps v v') :
    Derives ps (u ++ v) (u' ++ v') := by
  have h₁ : Derives ps (u ++ v) (u' ++ v) := by simpa using hu.inside [] v
  have h₂ : Derives ps (u' ++ v) (u' ++ v') := by simpa using hv.inside u' []
  exact h₁.trans h₂

/-- More productions derive more. -/
lemma Derives.mono {qs : List (Symbol × Body)} (hsub : ps ⊆ qs) {u v : Body} (h : Derives ps u v) :
    Derives qs u v := by
  induction h with
  | refl => exact .refl
  | tail _ hs ih =>
    obtain ⟨p, hp, hsplit⟩ := hs
    exact ih.tail ⟨p, hsub hp, hsplit⟩

/-- More productions derive more terminals. -/
lemma Generates.mono {qs : List (Symbol × Body)} {kinds : Kinds} (hsub : ps ⊆ qs) {u : Body}
    (h : Generates ps kinds u) : Generates qs kinds u := by
  obtain ⟨w, hw, hterminal⟩ := h
  exact ⟨w, hw.mono hsub, hterminal⟩

/-! ### The empty string -/

/-- A string of nullable symbols derives the empty string. -/
lemma derives_nil_of_forall {u : Body} (h : ∀ x ∈ u, Derives ps [x] []) : Derives ps u [] := by
  induction u with
  | nil => exact .refl
  | cons x u ih =>
    have hx := h x List.mem_cons_self
    exact hx.append (ih fun y hy => h y (List.mem_cons_of_mem x hy))

/-- A nullable symbol derives the empty string. -/
lemma Nullable.derives {A : Symbol} (h : Nullable ps A) : Derives ps [A] [] := by
  induction h with
  | of_production hp _ ih =>
    exact .head (Rewrites.of_production hp) (derives_nil_of_forall ih)

/-- The symbols of a string that derives the empty string are nullable. -/
lemma forall_nullable_of_derives {u : Body} (h : Derives ps u []) : ∀ x ∈ u, Nullable ps x := by
  induction h using Relation.ReflTransGen.head_induction_on with
  | refl => simp
  | head hs _ ih =>
    obtain ⟨p, hp, before, after, rfl, rfl⟩ := hs
    have hhead : Nullable ps p.1 := .of_production hp fun x hx => ih x (by simp [hx])
    intro x hx
    rcases List.mem_append.1 hx with hx | hx
    · exact ih x (by simp [hx])
    · rcases List.mem_cons.1 hx with rfl | hx
      · exact hhead
      · exact ih x (by simp [hx])

/-- The symbols of a string are nullable exactly when it derives the empty string. -/
lemma forall_nullable_iff {u : Body} : (∀ x ∈ u, Nullable ps x) ↔ Derives ps u [] :=
  ⟨fun h => derives_nil_of_forall fun x hx => (h x hx).derives, forall_nullable_of_derives⟩

/-- A symbol is nullable exactly when it derives the empty string. -/
lemma nullable_iff_derives {A : Symbol} : Nullable ps A ↔ Derives ps [A] [] := by
  rw [← forall_nullable_iff, List.forall_mem_singleton]

/-! ### The first terminal -/

/-- Nothing begins the empty string. -/
lemma not_starts_nil {t : Symbol} : ¬ Starts ps kinds [] t := nofun

/-- A string begins with what its first symbol begins with or, past a nullable symbol, with what the rest
begins with. -/
lemma starts_cons_iff {x t : Symbol} {u : Body} :
    Starts ps kinds (x :: u) t ↔ Starts ps kinds [x] t ∨ Nullable ps x ∧ Starts ps kinds u t := by
  constructor
  · intro h
    cases h with
    | terminal ht => exact Or.inl (.terminal ht)
    | expand hp h => exact Or.inl (.expand hp h)
    | skip hx h => exact Or.inr ⟨hx, h⟩
  · rintro (h | ⟨hx, h⟩)
    · cases h with
      | terminal ht => exact .terminal ht
      | expand hp h => exact .expand hp h
      | skip _ h => exact absurd h not_starts_nil
    · exact .skip hx h

/-- A joined string begins with what its first part begins with or, past a nullable part, with what the
second part begins with. -/
lemma starts_append_iff {u v : Body} {t : Symbol} :
    Starts ps kinds (u ++ v) t ↔
      Starts ps kinds u t ∨ (∀ x ∈ u, Nullable ps x) ∧ Starts ps kinds v t := by
  induction u with
  | nil => simp [not_starts_nil]
  | cons x u ih =>
    rw [List.cons_append, starts_cons_iff, ih, starts_cons_iff (u := u), List.forall_mem_cons]
    tauto

/-- What begins a string is a terminal. -/
lemma Starts.isTerminal {u : Body} {t : Symbol} (h : Starts ps kinds u t) : kinds.IsTerminal t := by
  induction h with
  | terminal ht => exact ht
  | expand _ _ ih => exact ih
  | skip _ _ ih => exact ih

/-- What begins a string begins one of the strings that it derives. -/
lemma Starts.exists_derives {u : Body} {t : Symbol} (h : Starts ps kinds u t) :
    ∃ rest, Derives ps u (t :: rest) := by
  induction h with
  | @terminal t u _ => exact ⟨u, .refl⟩
  | @expand A t ω u hp _ ih =>
    obtain ⟨rest, hrest⟩ := ih
    have hA : Derives ps [A] (t :: rest) := .head (Rewrites.of_production hp) hrest
    exact ⟨rest ++ u, hA.append (.refl (a := u))⟩
  | skip hx _ ih =>
    obtain ⟨rest, hrest⟩ := ih
    exact ⟨rest, hx.derives.append hrest⟩

/-- A terminal that begins a derived string begins the string itself. -/
lemma starts_of_derives {u rest : Body} {t : Symbol} (ht : kinds.IsTerminal t)
    (h : Derives ps u (t :: rest)) : Starts ps kinds u t := by
  induction h using Relation.ReflTransGen.head_induction_on with
  | refl => exact .terminal ht
  | head hs _ ih =>
    obtain ⟨p, hp, before, after, rfl, rfl⟩ := hs
    rw [starts_append_iff, starts_append_iff] at ih
    rw [starts_append_iff]
    rcases ih with (h | ⟨hb, h⟩) | ⟨hbp, h⟩
    · exact Or.inl h
    · exact Or.inr ⟨hb, .expand hp h⟩
    · have hhead : Nullable ps p.1 := .of_production hp fun x hx => hbp x (by simp [hx])
      exact Or.inr ⟨fun x hx => hbp x (by simp [hx]), .skip hhead h⟩

/-- The terminals that begin a string are those that begin the strings it derives. -/
lemma starts_iff_derives {u : Body} {t : Symbol} :
    Starts ps kinds u t ↔ kinds.IsTerminal t ∧ ∃ rest, Derives ps u (t :: rest) :=
  ⟨fun h => ⟨h.isTerminal, h.exists_derives⟩, fun ⟨ht, _, h⟩ => starts_of_derives ht h⟩

/-! ### Lookahead behind a string -/

/-- With a terminal behind a string, what leads is what begins the longer string. -/
lemma leads_iff_derives (hps : ∀ p ∈ ps, ¬ kinds.IsTerminal p.1) {u : Body} {y t : Symbol}
    (hy : kinds.IsTerminal y) :
    Leads ps kinds u y t ↔ kinds.IsTerminal t ∧ ∃ rest, Derives ps (u ++ [y]) (t :: rest) := by
  rw [← starts_iff_derives, starts_append_iff]
  refine or_congr_right (and_congr_right fun _ => ⟨?_, ?_⟩)
  · rintro rfl
    exact .terminal hy
  · intro h
    cases h with
    | terminal _ => rfl
    | expand hp _ => exact absurd hy (hps _ hp)
    | skip _ h => exact absurd h not_starts_nil

/-- Behind a nullable string the lookahead leads. -/
lemma leads_self {u : Body} (h : ∀ x ∈ u, Nullable ps x) (y : Symbol) : Leads ps kinds u y y :=
  Or.inr ⟨h, rfl⟩

/-- What leads is a terminal when the lookahead is one. -/
lemma Leads.isTerminal {u : Body} {y t : Symbol} (h : Leads ps kinds u y t)
    (hy : kinds.IsTerminal y) : kinds.IsTerminal t := by
  rcases h with h | ⟨_, rfl⟩
  · exact h.isTerminal
  · exact hy

/-- Behind a string that derives terminals, something leads. -/
lemma Generates.exists_leads {u : Body} (h : Generates ps kinds u) (y : Symbol) :
    ∃ t, Leads ps kinds u y t := by
  obtain ⟨w, hw, hterminal⟩ := h
  cases w with
  | nil => exact ⟨y, leads_self (forall_nullable_iff.2 hw) y⟩
  | cons t rest => exact ⟨t, Or.inl (starts_of_derives (hterminal t List.mem_cons_self) hw)⟩

/-- A string derives terminals when each of its symbols does. -/
lemma generates_of_forall {u : Body} (h : ∀ x ∈ u, Generates ps kinds [x]) :
    Generates ps kinds u := by
  induction u with
  | nil => exact ⟨[], .refl, by simp⟩
  | cons x u ih =>
    obtain ⟨w₁, h₁, ht₁⟩ := h x List.mem_cons_self
    obtain ⟨w₂, h₂, ht₂⟩ := ih fun y hy => h y (List.mem_cons_of_mem x hy)
    exact ⟨w₁ ++ w₂, h₁.append h₂, List.forall_mem_append.2 ⟨ht₁, ht₂⟩⟩

/-- A terminal derives itself. -/
lemma generates_terminal {t : Symbol} (ht : kinds.IsTerminal t) : Generates ps kinds [t] :=
  ⟨[t], .refl, by simpa using ht⟩

end Lalr
