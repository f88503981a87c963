import Lalr.Grammar.Builder
import Lalr.Proofs.Validation

/-!
# What a builder makes of its calls

A builder is used by calls that mention a left-hand side or add a rule to one.  What it holds in the end is a function
of the calls (`Builder.contents`): a production for each left-hand side in order of first mention, with its bodies in
order of first addition.  A single call changes the contents as the builder is changed (`Builder.contents_define`,
`Builder.contents_add`), so that any number of them do (`Builder.after_fresh`).

The builder infers kinds from the calls and the checks of the grammar look at these kinds again.  A symbol has a kind
when it is mentioned, and it is a nonterminal when it is the initial symbol, the start symbol or a left-hand side
(`Builder.isNonterminal_iff`).  Hence a production uses no symbol without a kind and has no terminal on its left,
and the checks find only what the calls themselves have caused (`Builder.hasDefect_iff`).
-/

namespace Lalr

namespace Builder

/-! ### Calls -/

/-- A call to a builder. -/
inductive Call where
  /-- A left-hand side is mentioned. -/
  | define (lhs : Symbol)
  /-- A rule is added. -/
  | add (lhs : Symbol) (body : Body)
deriving BEq, ReflBEq, LawfulBEq

namespace Call

/-- The left-hand side that a call mentions. -/
def lhs : Call → Symbol
  | define lhs => lhs
  | add lhs _ => lhs

/-- The symbols that a call mentions. -/
def symbols : Call → List Symbol
  | define lhs => [lhs]
  | add lhs body => lhs :: body

/-- A call mentions its left-hand side. -/
lemma lhs_mem_symbols (call : Call) : call.lhs ∈ call.symbols := by
  cases call with
  | define lhs => exact List.mem_singleton_self lhs
  | add lhs body => exact List.mem_cons_self

/-- The body that a call adds to a left-hand side. -/
def body? (lhs : Symbol) : Call → Option Body
  | define _ => none
  | add lhs' body => if lhs' = lhs then some body else none

/-- A call adds a body to a left-hand side when it is the call that adds this rule. -/
lemma body?_eq_some {lhs : Symbol} {body : Body} {call : Call} :
    call.body? lhs = some body ↔ call = add lhs body := by
  cases call with
  | define lhs' => simp [body?]
  | add lhs' body' =>
    simp only [body?, Option.ite_none_right_eq_some, Option.some.injEq, add.injEq]

end Call

/-- Makes a call. -/
def call (b : Builder) : Call → Builder
  | .define lhs => b.define lhs
  | .add lhs body => b.add lhs body

/-- The builder after calls, one after the other. -/
def after (b : Builder) (calls : List Call) : Builder :=
  calls.foldl call b

/-- The builder that has not been called, and that infers kinds. -/
def fresh (unknown init start : Symbol) : Builder := { unknown, init, start }

/-! ### The productions that calls have made -/

/-- The left-hand sides in order of first mention. -/
def heads (calls : List Call) : List Symbol := (calls.map Call.lhs).eraseDups

/-- The bodies of a left-hand side in order of first addition. -/
def bodies (calls : List Call) (lhs : Symbol) : List Body := (calls.filterMap (Call.body? lhs)).eraseDups

/-- The productions that calls have made. -/
def contents (calls : List Call) : List Production :=
  (heads calls).map fun lhs => { lhs, bodies := bodies calls lhs }

variable {calls : List Call} {lhs : Symbol} {body : Body}

/-- The left-hand sides are those that have been mentioned. -/
lemma mem_heads : lhs ∈ heads calls ↔ lhs ∈ calls.map Call.lhs := List.mem_eraseDups

/-- The bodies are those that have been added. -/
lemma mem_bodies : body ∈ bodies calls lhs ↔ .add lhs body ∈ calls := by
  unfold bodies
  rw [List.mem_eraseDups, List.mem_filterMap]
  simp only [Call.body?_eq_some, exists_eq_right]

/-- A left-hand side to which a rule has been added has been mentioned. -/
lemma lhs_mem_of_add (h : .add lhs body ∈ calls) : lhs ∈ calls.map Call.lhs :=
  List.mem_map.2 ⟨_, h, rfl⟩

/-- A left-hand side that has not been mentioned has no bodies. -/
lemma bodies_eq_nil (h : lhs ∉ heads calls) : bodies calls lhs = [] :=
  List.eq_nil_iff_forall_not_mem.2 fun _ hbody => h (mem_heads.2 (lhs_mem_of_add (mem_bodies.1 hbody)))

/-- A left-hand side has a production exactly when it has been mentioned. -/
lemma isSome_production? {b : Builder} (hb : b.productions = contents calls) (lhs : Symbol) :
    (b.production? lhs).isSome = true ↔ lhs ∈ heads calls := by
  unfold production?
  simp [hb, contents, List.find?_isSome]

/-- Mentioning a left-hand side adds no body. -/
lemma bodies_define (calls : List Call) (lhs lhs' : Symbol) :
    bodies (calls ++ [.define lhs]) lhs' = bodies calls lhs' := by
  rw [bodies, List.filterMap_append, List.filterMap_cons_none rfl, List.filterMap_nil, List.append_nil]
  rfl

/-- Mentioning a left-hand side adds it at the end, without bodies, unless it is there. -/
lemma contents_define (calls : List Call) (lhs : Symbol) :
    contents (calls ++ [.define lhs]) =
      if lhs ∈ heads calls then contents calls else contents calls ++ [({ lhs } : Production)] := by
  have hheads : heads (calls ++ [.define lhs]) =
      if lhs ∈ calls.map Call.lhs then heads calls else heads calls ++ [lhs] := by
    rw [heads, List.map_append]
    exact eraseDups_concat _ _
  unfold contents
  simp only [bodies_define, hheads, ← mem_heads]
  split
  · rfl
  · rename_i hnew
    rw [List.map_append, List.map_singleton, bodies_eq_nil hnew]

/-- Adding a rule mentions its left-hand side and adds its body there, unless it is there. -/
lemma contents_add (calls : List Call) (lhs : Symbol) (body : Body) :
    contents (calls ++ [.add lhs body]) =
      (contents (calls ++ [.define lhs])).map fun p => if p.lhs = lhs then p.insert body else p := by
  have hheads : heads (calls ++ [.add lhs body]) = heads (calls ++ [.define lhs]) := by
    simp [heads, Call.lhs]
  unfold contents
  rw [hheads, List.map_map]
  refine List.map_congr_left fun lhs' _ => ?_
  simp only [Function.comp_apply, bodies_define]
  by_cases hlhs : lhs' = lhs
  · subst hlhs
    rw [if_pos rfl, Production.insert]
    have hadd : bodies (calls ++ [.add lhs' body]) lhs' =
        if body ∈ bodies calls lhs' then bodies calls lhs' else bodies calls lhs' ++ [body] := by
      simp [bodies, Call.body?, eraseDups_concat]
    rw [hadd]
    split <;> rfl
  · have hother : bodies (calls ++ [.add lhs body]) lhs' = bodies calls lhs' := by
      simp [bodies, Call.body?, Ne.symm hlhs]
    rw [if_neg hlhs, hother]

/-- A call changes the contents as it changes the builder. -/
lemma call_of_contents {b : Builder} (hb : b.productions = contents calls) (c : Call) :
    b.call c = { b with productions := contents (calls ++ [c]) } := by
  have hdefine (lhs : Symbol) : b.define lhs = { b with productions := contents (calls ++ [.define lhs]) } := by
    unfold define
    simp only [contents_define, isSome_production? hb, ← hb]
    split <;> rfl
  cases c with
  | define lhs => exact hdefine lhs
  | add lhs body =>
    rw [call, add, hdefine, contents_add]

/-- What a builder holds after calls. -/
theorem after_fresh (unknown init start : Symbol) (calls : List Call) :
    (fresh unknown init start).after calls = { unknown, init, start, productions := contents calls } := by
  induction calls using List.reverseRecOn with
  | nil => rfl
  | append_singleton calls c ih =>
    rw [after, List.foldl_concat, ← after, ih]
    exact call_of_contents rfl c

/-- A rule is listed exactly when it has been added. -/
lemma mem_pairs {b : Builder} (hb : b.productions = contents calls) :
    (lhs, body) ∈ b.pairs ↔ .add lhs body ∈ calls := by
  unfold pairs
  rw [hb, contents, List.mem_flatMap]
  constructor
  · rintro ⟨p, hp, hbody⟩
    obtain ⟨lhs', -, rfl⟩ := List.mem_map.1 hp
    obtain ⟨body', hbody', heq⟩ := List.mem_map.1 hbody
    obtain ⟨rfl, rfl⟩ := Prod.mk.inj heq
    exact mem_bodies.1 hbody'
  · intro hadd
    refine ⟨_, List.mem_map.2 ⟨lhs, mem_heads.2 (lhs_mem_of_add hadd), rfl⟩, ?_⟩
    exact List.mem_map.2 ⟨body, mem_bodies.2 hadd, rfl⟩

/-- The first rule comes before the second one: its left-hand side has been mentioned before, or it is the same one and
the rule has been added before. -/
def Precedes (calls : List Call) (p q : Symbol × Body) : Prop :=
  (calls.map Call.lhs).idxOf p.1 < (calls.map Call.lhs).idxOf q.1 ∨
    p.1 = q.1 ∧ calls.idxOf (.add p.1 p.2) < calls.idxOf (.add q.1 q.2)

/-- No rule comes before itself. -/
lemma Precedes.ne {p q : Symbol × Body} (h : Precedes calls p q) : p ≠ q := by
  rintro rfl
  rcases h with hlt | ⟨-, hlt⟩
  · exact lt_irrefl _ hlt
  · exact lt_irrefl _ hlt

/-- Of two bodies of a left-hand side, the one that is found first has been added first. -/
lemma idxOf_filterMap_lt {body body' : Body}
    (h : (calls.filterMap (Call.body? lhs)).idxOf body < (calls.filterMap (Call.body? lhs)).idxOf body') :
    calls.idxOf (.add lhs body) < calls.idxOf (.add lhs body') := by
  induction calls with
  | nil => simp at h
  | cons c calls ih =>
    cases hbody : c.body? lhs with
    | none =>
      have hne (body : Body) : (c == .add lhs body) = false :=
        beq_false_of_ne fun heq => by simp [Call.body?_eq_some.2 heq] at hbody
      rw [List.filterMap_cons_none hbody] at h
      rw [List.idxOf_cons, List.idxOf_cons, hne, hne, cond_false, cond_false, Nat.add_lt_add_iff_right]
      exact ih h
    | some first =>
      obtain rfl := Call.body?_eq_some.1 hbody
      have hbeq (body : Body) : (Call.add lhs first == .add lhs body) = (first == body) := by
        rw [Bool.eq_iff_iff, beq_iff_eq, beq_iff_eq]
        simp
      rw [List.filterMap_cons_some hbody, List.idxOf_cons, List.idxOf_cons] at h
      rw [List.idxOf_cons, List.idxOf_cons, hbeq, hbeq]
      cases hfirst : first == body with
      | true =>
        cases hfirst' : first == body' with
        | true => simp [hfirst, hfirst'] at h
        | false => simp
      | false =>
        cases hfirst' : first == body' with
        | true => simp [hfirst'] at h
        | false =>
          simp only [hfirst, hfirst', cond_false, Nat.add_lt_add_iff_right] at h ⊢
          exact ih h

/-- The rules are listed in order: left-hand sides by first mention, bodies of one left-hand side by first addition. -/
lemma pairwise_pairs {b : Builder} (hb : b.productions = contents calls) : b.pairs.Pairwise (Precedes calls) := by
  unfold pairs
  rw [hb, contents, List.flatMap_map, List.pairwise_flatMap]
  constructor
  · intro lhs _
    rw [List.pairwise_map]
    exact (pairwise_idxOf_eraseDups _).imp fun h => Or.inr ⟨rfl, idxOf_filterMap_lt h⟩
  · refine (pairwise_idxOf_eraseDups _).imp fun {lhs lhs'} hlt p hp q hq => Or.inl ?_
    obtain ⟨body, -, rfl⟩ := List.mem_map.1 hp
    obtain ⟨body', -, rfl⟩ := List.mem_map.1 hq
    exact hlt

/-! ### The kinds that are inferred -/

/-- The mentioned symbols are the ones set apart and those of the calls. -/
lemma mem_mentioned {b : Builder} (hb : b.productions = contents calls) {s : Symbol} :
    s ∈ b.mentioned ↔ s ∈ [Symbol.eof, b.unknown, b.init, b.start] ∨ ∃ c ∈ calls, s ∈ c.symbols := by
  unfold mentioned
  rw [List.mem_append, hb, contents]
  refine or_congr_right ?_
  simp only [List.mem_flatMap, List.mem_map, exists_exists_and_eq_and, List.mem_cons, List.mem_flatten]
  constructor
  · rintro ⟨lhs, hlhs, rfl | ⟨body, hbody, hs⟩⟩
    · obtain ⟨c, hc, rfl⟩ := List.mem_map.1 (mem_heads.1 hlhs)
      exact ⟨c, hc, c.lhs_mem_symbols⟩
    · exact ⟨_, mem_bodies.1 hbody, List.mem_cons_of_mem _ hs⟩
  · rintro ⟨c, hc, hs⟩
    refine ⟨c.lhs, mem_heads.2 (List.mem_map.2 ⟨c, hc, rfl⟩), ?_⟩
    cases c with
    | define lhs => exact Or.inl (List.mem_singleton.1 hs)
    | add lhs body =>
      rcases List.mem_cons.1 hs with rfl | hs
      · exact Or.inl rfl
      · exact Or.inr ⟨body, mem_bodies.2 hc, hs⟩

/-- The mentioned symbols have the kinds that are inferred for them, and no other symbols have kinds. -/
lemma getElem?_inferredKinds (b : Builder) (s : Symbol) :
    b.inferredKinds[s]? = if s ∈ b.mentioned then some (b.inferKind s) else none := by
  unfold inferredKinds
  cases hkind : (Std.ExtTreeMap.ofList (b.mentioned.map fun s => (s, b.inferKind s)))[s]? with
  | some kind =>
    obtain ⟨s', hs', heq⟩ := List.mem_map.1 (mem_of_getElem?_ofList hkind)
    obtain ⟨rfl, rfl⟩ := Prod.mk.inj heq
    rw [if_pos hs']
  | none =>
    rw [if_neg]
    intro hs
    have hmem : s ∈ Std.ExtTreeMap.ofList (b.mentioned.map fun s => (s, b.inferKind s)) := by
      rw [Std.ExtTreeMap.mem_ofList, List.contains_iff_mem, List.map_map]
      exact List.mem_map.2 ⟨s, hs, rfl⟩
    rw [Std.ExtTreeMap.mem_iff_isSome_getElem?, hkind] at hmem
    cases hmem

/-- The end of input is mentioned, so that the kinds of the grammar are the inferred ones. -/
lemma classification_eq {b : Builder} (hdeclared : b.declared = none) :
    b.toGrammar.classification = b.inferredKinds := by
  have hkinds : b.toGrammar.kinds = b.inferredKinds := by
    simp [toGrammar, kinds, hdeclared]
  have heof : Symbol.eof ∈ b.inferredKinds := by
    rw [Std.ExtTreeMap.mem_iff_isSome_getElem?, getElem?_inferredKinds, if_pos (by simp [mentioned])]
    rfl
  rw [Grammar.classification, hkinds]
  refine Std.ExtTreeMap.ext_getElem? fun s => ?_
  rw [Std.ExtTreeMap.getElem?_insertIfNew, if_neg fun h => h.2 heof]

/-- The symbol is the initial symbol, the start symbol or a left-hand side. -/
def IsHead (b : Builder) (calls : List Call) (s : Symbol) : Prop :=
  s = b.init ∨ s = b.start ∨ s ∈ calls.map Call.lhs

/-- What calls have to do for a defect to be found. -/
def Causes (b : Builder) (calls : List Call) : Defect → Prop
  | .wrongKind role s kind =>
    (role, s, kind) ∈ [(.unknown, b.unknown, .terminal), (.eof, Symbol.eof, .terminal)] ∧
      b.IsHead calls s
  | .reservedId s =>
    s = Symbol.placeholder ∧ (s ∈ [b.unknown, b.init, b.start] ∨ ∃ c ∈ calls, s ∈ c.symbols)
  | .initHasRules s => s = b.init ∧ ∃ body, .add s body ∈ calls
  | .noRules s => s ≠ b.init ∧ (s = b.start ∨ s ∈ calls.map Call.lhs) ∧ ∀ body, .add s body ∉ calls
  | .undefinedSymbol .. | .terminalHasRules .. | .reduceConflict .. => False

section

variable {b : Builder} (hb : b.productions = contents calls) (hdeclared : b.declared = none)
include hb hdeclared

/-- The symbols with kinds are the ones set apart and those of the calls. -/
lemma mem_classification {s : Symbol} :
    s ∈ b.toGrammar.classification ↔
      s ∈ [Symbol.eof, b.unknown, b.init, b.start] ∨ ∃ c ∈ calls, s ∈ c.symbols := by
  rw [classification_eq hdeclared, Std.ExtTreeMap.mem_iff_isSome_getElem?, getElem?_inferredKinds,
    ← mem_mentioned hb]
  split <;> simp_all

/-- The nonterminals are the initial symbol, the start symbol and the left-hand sides. -/
lemma isNonterminal_iff {s : Symbol} :
    b.toGrammar.classification[s]? = some .nonterminal ↔ b.IsHead calls s := by
  have hkind : b.inferKind s = .nonterminal ↔ b.IsHead calls s := by
    rw [IsHead, ← mem_heads, ← isSome_production? hb, inferKind]
    split <;> simp_all
  have hmentioned (hs : b.IsHead calls s) : s ∈ b.mentioned := by
    rw [mem_mentioned hb]
    rcases hs with rfl | rfl | hs
    · simp
    · simp
    · obtain ⟨c, hc, rfl⟩ := List.mem_map.1 hs
      exact Or.inr ⟨c, hc, c.lhs_mem_symbols⟩
  rw [classification_eq hdeclared, getElem?_inferredKinds, Option.ite_none_right_eq_some, Option.some.injEq, hkind]
  exact and_iff_right_of_imp hmentioned

/-- The terminals are the other symbols with kinds. -/
lemma isTerminal_iff {s : Symbol} :
    b.toGrammar.classification[s]? = some .terminal ↔
      s ∈ b.toGrammar.classification ∧ ¬ b.IsHead calls s := by
  rw [← isNonterminal_iff hb hdeclared, Std.ExtTreeMap.mem_iff_isSome_getElem?]
  cases b.toGrammar.classification[s]? with
  | none => simp
  | some kind => cases kind <;> simp

/-! ### What the checks can find -/

/-- The unknown symbol and the end of input have the wrong kind when they are nonterminals; the initial and the start
symbol are nonterminals. -/
lemma hasDefect_wrongKind_iff {role : Role} {s : Symbol} {kind : Kind} :
    b.toGrammar.HasDefect (.wrongKind role s kind) ↔ b.Causes calls (.wrongKind role s kind) := by
  have hterminal (hs : s ∈ [Symbol.eof, b.unknown, b.init, b.start]) :
      b.toGrammar.classification[s]? ≠ some .terminal ↔ b.IsHead calls s := by
    rw [Ne, isTerminal_iff hb hdeclared, and_iff_right ((mem_classification hb hdeclared).2 (Or.inl hs)), not_not]
  constructor
  · rintro ⟨hrole, hkind⟩
    rcases List.mem_append.1 (show _ ∈ [_, _] ++ [_, _] from hrole) with hrole | hrole
    · refine ⟨hrole, ?_⟩
      obtain ⟨-, rfl, rfl⟩ | ⟨-, rfl, rfl⟩ := by simpa using hrole
      · exact (hterminal (by simp [toGrammar])).1 hkind
      · exact (hterminal (by simp)).1 hkind
    · obtain ⟨-, rfl, rfl⟩ | ⟨-, rfl, rfl⟩ := by simpa using hrole
      · exact absurd ((isNonterminal_iff hb hdeclared).2 (Or.inl rfl)) hkind
      · exact absurd ((isNonterminal_iff hb hdeclared).2 (Or.inr (Or.inl rfl))) hkind
  · rintro ⟨hrole, hhead⟩
    refine ⟨List.mem_append_left _ hrole, ?_⟩
    obtain ⟨-, rfl, rfl⟩ | ⟨-, rfl, rfl⟩ := by simpa using hrole
    · exact (hterminal (by simp)).2 hhead
    · exact (hterminal (by simp)).2 hhead

/-- The checks find exactly the defects that the calls have caused: never a symbol without a kind or a terminal with
rules, and the initial and the start symbol have their kinds. -/
lemma hasDefect_iff {d : Defect} : b.toGrammar.HasDefect d ↔ b.Causes calls d := by
  cases d with
  | wrongKind role s kind => exact hasDefect_wrongKind_iff hb hdeclared
  | undefinedSymbol s lhs =>
    refine iff_false_intro ?_
    rintro ⟨-, hnone, body, hbody, hs⟩
    exact hnone ((mem_classification hb hdeclared).2 (Or.inr ⟨_, (mem_pairs hb).1 hbody, hs⟩))
  | noRules s =>
    simp only [Grammar.HasDefect, Causes, isNonterminal_iff hb hdeclared]
    constructor
    · rintro ⟨hhead, hinit, hnone⟩
      exact ⟨hinit, hhead.resolve_left hinit, fun body hbody => hnone body ((mem_pairs hb).2 hbody)⟩
    · rintro ⟨hinit, hhead, hnone⟩
      exact ⟨Or.inr hhead, hinit, fun body hbody => hnone body ((mem_pairs hb).1 hbody)⟩
  | initHasRules s => exact and_congr_right fun _ => exists_congr fun _ => mem_pairs hb
  | terminalHasRules s =>
    refine iff_false_intro ?_
    rintro ⟨-, hkind, body, hbody⟩
    have hhead := lhs_mem_of_add ((mem_pairs hb).1 hbody)
    exact ((isTerminal_iff hb hdeclared).1 hkind).2 (Or.inr (Or.inr hhead))
  | reservedId s =>
    refine and_congr_right ?_
    rintro rfl
    have hne : Symbol.placeholder ≠ Symbol.eof := by decide
    rw [mem_classification hb hdeclared, List.mem_cons, or_iff_right hne]
  | reduceConflict state symbol rules => exact Iff.rfl

/-- Nothing is found exactly when the calls have caused no defect. -/
lemma exists_augment_iff : (∃ g, b.toGrammar.augment = .ok g) ↔ ∀ d, ¬ b.Causes calls d := by
  simp only [← hasDefect_iff hb hdeclared, ← Grammar.defects_eq_nil]
  constructor
  · rintro ⟨g, hg⟩
    exact (Grammar.augment_eq_ok hg).1
  · exact Grammar.exists_augment_of_defects

/-- Only defects that the calls have caused are reported. -/
lemma causes_of_augment {failure : Failure} (h : b.toGrammar.augment = .error failure) :
    ∃ defects, failure = .invalid ⟨defects⟩ ∧ ∀ d ∈ defects, b.Causes calls d := by
  have hdefects : b.toGrammar.defects ≠ [] := by
    intro hnil
    obtain ⟨g, hg⟩ := Grammar.exists_augment_of_defects hnil
    cases h.symm.trans hg
  refine ⟨b.toGrammar.defects, Except.error.inj (h.symm.trans (Grammar.augment_of_defects hdefects)), ?_⟩
  exact fun d hd => (hasDefect_iff hb hdeclared).1 (Grammar.mem_defects.1 hd)

end

/-- When calls have caused no defect. -/
lemma forall_not_causes_iff {b : Builder} :
    (∀ d, ¬ b.Causes calls d) ↔
      (∀ s ∈ [Symbol.eof, b.unknown], s ≠ b.init ∧ s ≠ b.start ∧ s ∉ calls.map Call.lhs) ∧
      (Symbol.placeholder ∉ [b.unknown, b.init, b.start] ∧ ∀ c ∈ calls, Symbol.placeholder ∉ c.symbols) ∧
      (∀ body, .add b.init body ∉ calls) ∧
      ∀ s, s = b.start ∨ s ∈ calls.map Call.lhs → s ≠ b.init → ∃ body, .add s body ∈ calls := by
  constructor
  · intro hnone
    refine ⟨fun s hs => ?_, ⟨fun hmem => ?_, fun c hc hmem => ?_⟩, fun body hbody => ?_, fun s hs hne => ?_⟩
    · have hhead : ¬ b.IsHead calls s := by
        intro hhead
        rcases List.mem_cons.1 hs with rfl | hs
        · exact hnone (.wrongKind .eof Symbol.eof .terminal) ⟨by simp, hhead⟩
        · exact hnone (.wrongKind .unknown s .terminal) ⟨by simp [List.mem_singleton.1 hs], hhead⟩
      simpa only [IsHead, not_or] using hhead
    · exact hnone (.reservedId _) ⟨rfl, Or.inl hmem⟩
    · exact hnone (.reservedId _) ⟨rfl, Or.inr ⟨c, hc, hmem⟩⟩
    · exact hnone (.initHasRules _) ⟨rfl, body, hbody⟩
    · by_contra hempty
      exact hnone (.noRules s) ⟨hne, hs, not_exists.1 hempty⟩
  · rintro ⟨hroles, ⟨hplaceholder, hcalls⟩, hinit, hrules⟩ d hd
    cases d with
    | wrongKind role s kind =>
      obtain ⟨hrole, hhead⟩ := hd
      have hs : s ∈ [Symbol.eof, b.unknown] := by
        rcases (by simpa using hrole : _ ∨ _) with ⟨-, rfl, -⟩ | ⟨-, rfl, -⟩ <;> simp
      obtain ⟨hinit, hstart, hlhs⟩ := hroles s hs
      rcases hhead with heq | heq | hmem
      · exact hinit heq
      · exact hstart heq
      · exact hlhs hmem
    | reservedId s =>
      obtain ⟨rfl, hmem | ⟨c, hc, hmem⟩⟩ := hd
      · exact hplaceholder hmem
      · exact hcalls c hc hmem
    | initHasRules s =>
      obtain ⟨rfl, body, hbody⟩ := hd
      exact hinit body hbody
    | noRules s =>
      obtain ⟨hne, hs, hempty⟩ := hd
      obtain ⟨body, hbody⟩ := hrules s hs hne
      exact hempty body hbody
    | undefinedSymbol s lhs => exact hd
    | terminalHasRules s => exact hd
    | reduceConflict state symbol rules => exact hd

/-- What a builder that infers kinds has made of any calls.  Its rules are those that have been added, each once,
left-hand sides in order of first mention and the bodies of one left-hand side in order of first addition.  The checks
of its grammar report neither symbols without kinds nor terminals with rules, and find nothing wrong with the kinds of
the initial and the start symbol.  They report nothing at all exactly when neither the end of input nor the unknown
symbol is the initial symbol, the start symbol or a left-hand side, the placeholder has not been mentioned, no rule has
been added to the initial symbol, and the start symbol and the left-hand sides have rules, the initial symbol
excepted. -/
theorem inferred_kinds_pass_checks (unknown init start : Symbol) (calls : List Call) :
    let b := (fresh unknown init start).after calls
    (b.toGrammar.productions.Nodup ∧
      (∀ lhs body, (lhs, body) ∈ b.toGrammar.productions ↔ .add lhs body ∈ calls) ∧
      b.toGrammar.productions.Pairwise (Precedes calls)) ∧
    (∀ failure, b.toGrammar.augment = .error failure → ∃ defects, failure = .invalid ⟨defects⟩ ∧ ∀ d ∈ defects,
      (∀ s lhs, d ≠ .undefinedSymbol s lhs) ∧ (∀ s, d ≠ .terminalHasRules s) ∧
      ∀ s kind, d ≠ .wrongKind .init s kind ∧ d ≠ .wrongKind .start s kind) ∧
    ((∃ g, b.toGrammar.augment = .ok g) ↔
      (∀ s ∈ [Symbol.eof, unknown], s ≠ init ∧ s ≠ start ∧ s ∉ calls.map Call.lhs) ∧
      (Symbol.placeholder ∉ [unknown, init, start] ∧ ∀ c ∈ calls, Symbol.placeholder ∉ c.symbols) ∧
      (∀ body, .add init body ∉ calls) ∧
      ∀ s, s = start ∨ s ∈ calls.map Call.lhs → s ≠ init → ∃ body, .add s body ∈ calls) := by
  intro b
  obtain ⟨hb, hdeclared, hunknown, hinit, hstart⟩ : b.productions = contents calls ∧ b.declared = none ∧
      b.unknown = unknown ∧ b.init = init ∧ b.start = start := by
    simp only [b, after_fresh, and_self]
  clear_value b
  subst hunknown hinit hstart
  have hordered := pairwise_pairs hb
  refine ⟨⟨hordered.imp Precedes.ne, fun lhs body => mem_pairs hb, hordered⟩, fun failure hfailure => ?_, ?_⟩
  · obtain ⟨defects, rfl, hcauses⟩ := causes_of_augment hb hdeclared hfailure
    refine ⟨defects, rfl, fun d hd => ?_⟩
    have hd := hcauses d hd
    refine ⟨?_, ?_, fun s kind => ⟨?_, ?_⟩⟩
    · rintro s lhs rfl
      exact hd
    · rintro s rfl
      exact hd
    · rintro rfl
      simp [Causes] at hd
    · rintro rfl
      simp [Causes] at hd
  · rw [exists_augment_iff hb hdeclared, forall_not_causes_iff]

end Builder

end Lalr
