import Grmpl.Lang.Handlers
import Grmpl.Lib.Templates

/-!
# Scheduled messages

A scheduled message is rendered by inverting one rule of the target's form, and parsed
again, when it is delivered, by all of them: the first rule that takes the tokens answers.
Whether that is the message that was meant, for every text of its arguments, is decided by
what each rule pins the arguments to.

* `messageTemplate`, `renderActorMessage_iff`: a message's tokens, its arguments as slots.
* `parseAll_plain`: what a form's rules answer of a row of tokens.
* `Arrives`, `CanArrive`: the property and the condition on the target's handler.
* `scheduled_arrives`; `scheduled_captured`: a message taken by another rule.
-/

namespace Grmpl

/-! ## What is rendered -/

/-- The tokens a rule takes, its constructor's arguments as slots. -/
def FormRule.template (rule : FormRule) : Option (List (Templates.Item String)) :=
  if rule.ctorArgs.Nodup then
    rule.seq.mapM (PAtom.render .const (rule.ctorArgs.zip ((List.range rule.ctorArgs.length).map .slot)))
  else none

/-- The tokens of a message of so many arguments, if one rule renders it and no other. -/
def messageTemplate (rules : List FormRule) (tag : String) (arity : Nat) : Option (List (Templates.Item String)) :=
  match ((rules.filter fun rule => rule.tag = tag ∧ rule.ctorArgs.length = arity).map
      FormRule.template).reduceOption with
  | [items] => some items
  | _ => none

/-- An item of a message, its slots the arguments' expressions. -/
def instantiate (irs : List ExprIr) : Templates.Item String → ExprIr
  | .const s => .text s
  | .slot i => (irs[i]?).getD (.text "")

section Render

variable {prog : HandlerProgram}

theorem PAtom.render_map {α β : Type} (f : α → β) (literal : String → α) (a : PAtom) (names : List String)
    (values : List α) : PAtom.render (fun s => f (literal s)) (names.zip (values.map f)) a
      = (PAtom.render literal (names.zip values) a).map f := by
  cases a with
  | lit s => rfl
  | bind name =>
    simp only [PAtom.render]
    induction names generalizing values with
    | nil => rfl
    | cons n names ih =>
      cases values with
      | nil => rfl
      | cons v values =>
        rw [List.map_cons, List.zip_cons_cons, List.zip_cons_cons, List.find?_cons, List.find?_cons]
        cases decide (n = name) with
        | true => rfl
        | false => exact ih values

theorem mapM_render_map {α β : Type} (f : α → β) (literal : String → α) (names : List String) (values : List α) :
    ∀ seq : List PAtom, seq.mapM (PAtom.render (fun s => f (literal s)) (names.zip (values.map f)))
      = (seq.mapM (PAtom.render literal (names.zip values))).map (List.map f)
  | [] => rfl
  | a :: seq => by
      rw [List.mapM_cons, List.mapM_cons, PAtom.render_map f literal, mapM_render_map f literal names values seq]
      cases PAtom.render literal (names.zip values) a with
      | none => rfl
      | some x => cases seq.mapM (PAtom.render literal (names.zip values)) <;> rfl

theorem lowerTexts_length : ∀ {arguments : List Expr} {irs : List ExprIr} {locals : Types},
    prog.lowerTexts locals arguments = .ok irs → irs.length = arguments.length
  | [], irs, locals, h => by
      cases h
      rfl
  | e :: es, irs, locals, h => by
      obtain ⟨typed, -, h⟩ := except_bind_ok h
      obtain ⟨_, -, h⟩ := except_bind_ok h
      obtain ⟨rest, hrest, h⟩ := except_bind_ok h
      cases h
      rw [List.length_cons, List.length_cons, lowerTexts_length hrest]

theorem map_instantiate_slots (irs : List ExprIr) :
    ((List.range irs.length).map Templates.Item.slot).map (instantiate irs) = irs := by
  refine List.ext_getElem (by simp) fun i h _ => ?_
  simp only [List.getElem_map, List.getElem_range, instantiate]
  rw [List.getElem?_eq_getElem ‹_›, Option.getD_some]

/-- A rule renders its template, the arguments in their slots. -/
theorem renderRule_eq {rule : FormRule} {arguments : List Expr} {irs : List ExprIr} {locals : Types}
    (hlower : prog.lowerTexts locals arguments = .ok irs) (hlen : rule.ctorArgs.length = arguments.length) :
    prog.renderRule locals arguments rule = .ok (rule.template.map (List.map (instantiate irs))) := by
  unfold HandlerProgram.renderRule FormRule.template
  split_ifs
  · rw [ok_bind hlower]
    refine congrArg Except.ok ?_
    rw [← mapM_render_map (instantiate irs), hlen, ← lowerTexts_length hlower, map_instantiate_slots]
    rfl
  · rfl

/-- The rules that a message to an actor is rendered and parsed with. -/
def HandlerProgram.targetRules (prog : HandlerProgram) (target : String) : Option (List FormRule) := do
  let actor ← prog.actor target
  let handler ← prog.onDef actor.inbox
  prog.formRules handler.form

/-- **A message is rendered as its template**, the arguments in its slots. -/
theorem renderActorMessage_iff {target tag : String} {arguments : List Expr} {irs body : List ExprIr} {locals : Types}
    (hlower : prog.lowerTexts locals arguments = .ok irs) :
    prog.renderActorMessage target tag arguments locals = .ok body ↔ ∃ rules items,
      prog.targetRules target = some rules ∧ messageTemplate rules tag arguments.length = some items ∧
        body = items.map (instantiate irs) := by
  unfold HandlerProgram.renderActorMessage HandlerProgram.targetRules
  cases prog.actor target with
  | none => simp
  | some actor =>
    cases hon : prog.onDef actor.inbox with
    | none => simp [hon]
    | some handler =>
      cases hrules : prog.formRules handler.form with
      | none => simp [hon, hrules]
      | some rules =>
        have hmap : (rules.filter fun rule => rule.tag = tag ∧ rule.ctorArgs.length = arguments.length).mapM
            (prog.renderRule locals arguments) = .ok ((rules.filter fun rule => rule.tag = tag ∧
              rule.ctorArgs.length = arguments.length).map
                fun rule => rule.template.map (List.map (instantiate irs))) :=
          mapM_ok fun rule hrule => renderRule_eq hlower (of_decide_eq_true (List.mem_filter.1 hrule).2).2
        have hrules' : (∃ rules' items, some rules = some rules' ∧
            messageTemplate rules' tag arguments.length = some items ∧ body = items.map (instantiate irs)) ↔
              ∃ items, messageTemplate rules tag arguments.length = some items ∧
                body = items.map (instantiate irs) :=
          ⟨fun ⟨_, items, h, h'⟩ => ⟨items, Option.some.inj h ▸ h'⟩, fun ⟨items, h⟩ => ⟨rules, items, rfl, h⟩⟩
        simp only [hon, hrules, Option.bind_eq_bind, Option.bind_some]
        have hreduce : ((rules.filter fun rule => rule.tag = tag ∧ rule.ctorArgs.length = arguments.length).map
            fun rule => rule.template.map (List.map (instantiate irs))).reduceOption = ((rules.filter fun rule =>
              rule.tag = tag ∧ rule.ctorArgs.length = arguments.length).map
                FormRule.template).reduceOption.map (List.map (instantiate irs)) := by
          rw [← List.reduceOption_map, List.map_map]
          rfl
        rw [hrules', ok_bind hmap, messageTemplate, hreduce]
        generalize ((rules.filter fun rule => rule.tag = tag ∧ rule.ctorArgs.length = arguments.length).map
          FormRule.template).reduceOption = found
        cases found with
        | nil => simp
        | cons items rest =>
          cases rest with
          | nil => simp [pure, Except.pure, eq_comm]
          | cons _ _ => simp

end Render

/-! ## What is evaluated -/

section Evaluate

variable {fl : FloatOps} {env : Locals}

theorem evalExprs_cons {e : ExprIr} {es : List ExprIr} {v : Value} {vs : List Value} (he : evalExpr fl env e = .ok v)
    (hes : evalExprs fl env es = .ok vs) : evalExprs fl env (e :: es) = .ok (v :: vs) := by
  unfold evalExprs at hes ⊢
  rw [List.mapM_cons, ok_bind he, ok_bind hes]
  rfl

theorem evalExprs_get : ∀ {irs : List ExprIr} {values : List String}, evalExprs fl env irs = .ok (values.map .text) →
    ∀ i : Nat, evalExpr fl env ((irs[i]?).getD (.text "")) = .ok (.text (values.getD i ""))
  | [], values, h, i => by
      cases values with
      | nil => rfl
      | cons v values => cases h
  | e :: es, values, h, i => by
      unfold evalExprs at h
      rw [List.mapM_cons] at h
      obtain ⟨v, hv, h⟩ := except_bind_ok h
      obtain ⟨vs, hvs, h⟩ := except_bind_ok h
      cases values with
      | nil => cases h
      | cons s values =>
        obtain ⟨rfl, rfl⟩ := List.cons.inj (Except.ok.inj h)
        cases i with
        | zero => exact hv
        | succ i => exact @evalExprs_get es values hvs i

/-- Where a message's arguments come to texts, its tokens come to its template filled with them. -/
theorem evalExprs_instantiate {irs : List ExprIr} {values : List String}
    (h : evalExprs fl env irs = .ok (values.map .text)) : ∀ items : List (Templates.Item String),
      evalExprs fl env (items.map (instantiate irs))
        = .ok ((items.map (·.fill fun i => values.getD i "")).map .text)
  | [] => rfl
  | .const _ :: items => evalExprs_cons rfl (evalExprs_instantiate h items)
  | .slot i :: items => evalExprs_cons (evalExprs_get h i) (evalExprs_instantiate h items)

end Evaluate

/-! ## What is parsed -/

/-- A pattern of a rule's token: a text, or a variable. -/
inductive Pattern.Plain : Pattern → Prop
  | lit (s : String) : Plain (.lit (.text s))
  | bind (id : VarId) : Plain (.bind id)

/-- The text a pattern asks for. -/
def Pattern.wants : Pattern → Option String
  | .lit (.text s) => some s
  | _ => none

/-- What the last of the patterns that bind a variable takes. -/
def captured {β : Type} (id : VarId) : List Pattern → List β → Option β
  | .bind id' :: ps, b :: bs => captured id ps bs <|> if id' = id then some b else none
  | _ :: ps, _ :: bs => captured id ps bs
  | _, _ => none

theorem captured_map {β γ : Type} (f : β → γ) (id : VarId) : ∀ (ps : List Pattern) (bs : List β),
    captured id ps (bs.map f) = (captured id ps bs).map f
  | [], _ => by simp [captured]
  | p :: ps, [] => by cases p <;> simp [captured]
  | p :: ps, b :: bs => by
      cases p with
      | bind id' =>
        rw [List.map_cons, captured, captured, captured_map f id ps bs]
        cases captured id ps bs with
        | none =>
          dsimp only [Option.map_none, HOrElse.hOrElse, OrElse.orElse, Option.orElse]
          split_ifs <;> rfl
        | some c => rfl
      | _ => simp only [List.map_cons, captured, captured_map f id ps bs]

/-- What is left whole of the matches of a row. -/
def complete (out : MatchList (List Value)) : MatchList (List Value) := out.filter fun m => m.2.isEmpty

theorem runSeq_none (rounds : Nat) : ∀ ps : List Pattern, runSeq rounds ps ([] : MatchList (List Value)) = some []
  | [] => rfl
  | _ :: ps => by
      rw [runSeq]
      exact runSeq_none rounds ps

theorem lookup_singleton_union (v id : VarId) (x : Value) (b : Bindings) :
    (Finmap.singleton v x ∪ b).lookup id = if v = id then some x else b.lookup id := by
  split_ifs with h
  · subst h
    rw [Finmap.lookup_union_left (by simp), Finmap.lookup_singleton_eq]
  · exact Finmap.lookup_union_right fun hmem => h (Finmap.mem_singleton _ _ _ |>.1 hmem).symm

/-- A row goes through plain patterns in one way at most. -/
theorem runSeq_plain (rounds : Nat) : ∀ {ps : List Pattern}, (∀ p ∈ ps, p.Plain) → ∀ (row : List String) (b : Bindings),
    ∃ out, runSeq rounds ps [(b, row.map Value.text)] = some out ∧
      ((Templates.Takes (ps.map Pattern.wants) row ∧ ∃ b', complete out = [(b', [])] ∧
          ∀ id, b'.lookup id = (captured id ps (row.map Value.text) <|> b.lookup id)) ∨
        ¬ Templates.Takes (ps.map Pattern.wants) row ∧ complete out = [])
  | [], _, [], b => ⟨[(b, [])], rfl, .inl ⟨trivial, b, rfl, fun _ => rfl⟩⟩
  | [], _, s :: row, b => ⟨[(b, .text s :: row.map .text)], rfl, .inr ⟨id, rfl⟩⟩
  | p :: ps, hp, [], b => by
      refine ⟨[], ?_, .inr ⟨?_, rfl⟩⟩
      · rw [runSeq]
        cases hp p (.head ps) <;> exact runSeq_none rounds ps
      · cases hp p (.head ps) <;> exact id
  | p :: ps, hp, s :: row, b => by
      have hps : ∀ q ∈ ps, q.Plain := fun q hq => hp q (.tail p hq)
      cases hp p (.head ps) with
      | lit t =>
        by_cases hst : s = t
        · obtain ⟨out, hout, hcases⟩ := runSeq_plain rounds hps row (∅ ∪ b)
          refine ⟨out, ?_, ?_⟩
          · rw [← hout, runSeq, hst]
            simp [extendAll, runIn, MatchInput.next, nextOf]
          · rw [Finmap.empty_union] at hcases
            rcases hcases with ⟨htakes, b', hb', hlookup⟩ | ⟨htakes, hnone⟩
            · exact .inl ⟨⟨hst, htakes⟩, b', hb', hlookup⟩
            · exact .inr ⟨fun h => htakes h.2, hnone⟩
        · refine ⟨[], ?_, .inr ⟨fun h => hst h.1, rfl⟩⟩
          rw [runSeq]
          simp [extendAll, runIn, MatchInput.next, nextOf, hst, runSeq_none]
      | bind v =>
        obtain ⟨out, hout, hcases⟩ := runSeq_plain rounds hps row (Finmap.singleton v (Value.text s) ∪ b)
        refine ⟨out, ?_, ?_⟩
        · rw [← hout, runSeq]
          simp [extendAll, runIn, MatchInput.next, nextOf]
        · rcases hcases with ⟨htakes, b', hb', hlookup⟩ | ⟨htakes, hnone⟩
          · refine .inl ⟨htakes, b', hb', fun id => ?_⟩
            rw [hlookup id, List.map_cons, captured, lookup_singleton_union]
            cases captured id ps (row.map Value.text) with
            | none => split_ifs <;> rfl
            | some c => rfl
          · exact .inr ⟨htakes, hnone⟩

/-- A tag and texts, as a form constructs them. -/
def constructed (tag : String) (texts : List String) : Value := .tuple (.text tag :: texts.map .text)

namespace RuleIr

def parts (r : RuleIr) : List Pattern :=
  match r.pattern with
  | .seq ps => ps
  | p => [p]

structure Plain (r : RuleIr) : Prop where
  pattern : r.pattern = .seq r.parts
  parts : ∀ p ∈ r.parts, p.Plain

/-- What a rule takes, and what it answers of a template's fillings. -/
def answer (items : List (Templates.Item String)) (r : RuleIr) : Templates.Rule String String :=
  ⟨r.parts.map Pattern.wants, r.ctor.tag, r.ctor.args.map fun id => (captured id r.parts items).getD (.const "")⟩

end RuleIr

section Parse

variable {items : List (Templates.Item String)} {σ : Nat → String}

/-- A template filled, as a row of tokens. -/
def filled (items : List (Templates.Item String)) (σ : Nat → String) : List Value := (items.map (·.fill σ)).map .text

/-- **What a rule answers of a template filled** is its answer filled. -/
theorem parse_rule (items : List (Templates.Item String)) (σ : Nat → String) {r : RuleIr} (hr : r.Plain)
    (rounds : Nat) : ∃ out,
    runIn rounds r.pattern (filled items σ) = some out ∧
      ((out.map fun m => (r.ctor.build m.1, m.2)).filter fun m => m.2.isEmpty).map (·.1) =
        if Templates.Takes (r.answer items).mask (items.map (·.fill σ)) then
          [constructed (r.answer items).tag ((r.answer items).built.map (·.fill σ))] else [] := by
  obtain ⟨out, hout, hcases⟩ := runSeq_plain rounds hr.parts (items.map (·.fill σ)) ∅
  refine ⟨out, by rw [hr.pattern, runIn]; exact hout, ?_⟩
  have hfilter : ((out.map fun m => (r.ctor.build m.1, m.2)).filter fun m => m.2.isEmpty).map (·.1) =
      (complete out).map fun m => r.ctor.build m.1 := by
    rw [List.filter_map, List.map_map]
    rfl
  rw [hfilter]
  rcases hcases with ⟨htakes, b, hb, hlookup⟩ | ⟨htakes, hnone⟩
  · rw [hb, if_pos (show Templates.Takes (r.answer items).mask _ from htakes)]
    refine congrArg (fun v => [v]) ?_
    show Value.tuple _ = Value.tuple _
    refine congrArg Value.tuple (congrArg (Value.text r.ctor.tag :: ·) ?_)
    rw [RuleIr.answer, List.map_map, List.map_map]
    refine List.map_congr_left fun id _ => ?_
    rw [hlookup id, List.map_map, captured_map, Finmap.lookup_empty]
    dsimp only [Function.comp]
    cases captured id r.parts items <;> rfl
  · rw [hnone, if_neg (show ¬ Templates.Takes (r.answer items).mask _ from htakes)]
    rfl

theorem parseIn_plain (items : List (Templates.Item String)) (σ : Nat → String) {rules : List RuleIr}
    (rounds : Nat) (h : ∀ r ∈ rules, r.Plain) : ∃ out,
    parseIn rounds (filled items σ) rules = some out ∧ (out.filter fun m => m.2.isEmpty).map (·.1) =
      (rules.filter fun r => Templates.Takes (r.answer items).mask (items.map (·.fill σ))).map fun r =>
        constructed (r.answer items).tag ((r.answer items).built.map (·.fill σ)) := by
  induction rules with
  | nil => exact ⟨[], rfl, rfl⟩
  | cons r rules ih =>
    obtain ⟨found, hfound, hr⟩ := parse_rule items σ (h r (.head rules)) rounds
    obtain ⟨out, hout, hrules⟩ := ih fun x hx => h x (.tail r hx)
    refine ⟨_, by rw [parseIn, hfound, hout]; rfl, ?_⟩
    rw [List.filter_append, List.map_append, hr, hrules, List.filter_cons]
    simp only [decide_eq_true_eq]
    split_ifs <;> rfl

/-- A form's parses of a template filled: the answers of the rules that take it. -/
theorem parseAll_plain {form : FormIr} (h : ∀ r ∈ form.rules, r.Plain) :
    form.parseAll (filled items σ) = some ((form.rules.filter fun r =>
      Templates.Takes (r.answer items).mask (items.map (·.fill σ))).map fun r =>
        constructed (r.answer items).tag ((r.answer items).built.map (·.fill σ))) := by
  obtain ⟨out, hout, heq⟩ := parseIn_plain items σ ((filled items σ).length + 1) h
  rw [FormIr.parseAll, hout, Option.map_some, heq]

end Parse

/-! ## Rules that are compiled -/

def PAtom.wants : PAtom → Option String
  | .lit s => some s
  | .bind _ => none

theorem formAtoms_plain : ∀ (seq : List PAtom) (ids : VarIds),
    (∀ p ∈ (formAtoms ids seq).1, p.Plain) ∧ (formAtoms ids seq).1.map Pattern.wants = seq.map PAtom.wants
  | [], _ => ⟨fun _ h => absurd h List.not_mem_nil, rfl⟩
  | .lit s :: seq, ids => by
      obtain ⟨hplain, hwants⟩ := formAtoms_plain seq ids
      exact ⟨List.forall_mem_cons.2 ⟨.lit s, hplain⟩, congrArg (some s :: ·) hwants⟩
  | .bind name :: seq, ids => by
      rw [formAtoms]
      split
      · rename_i id _
        obtain ⟨hplain, hwants⟩ := formAtoms_plain seq ids
        exact ⟨List.forall_mem_cons.2 ⟨.bind id, hplain⟩, congrArg (none :: ·) hwants⟩
      · obtain ⟨hplain, hwants⟩ := formAtoms_plain seq (ids ++ [(name, UInt32.ofNat ids.length)])
        exact ⟨List.forall_mem_cons.2 ⟨.bind _, hplain⟩, congrArg (none :: ·) hwants⟩

theorem formRule_plain {rule : FormRule} {r : RuleIr} (h : formRule rule = .ok r) :
    r.Plain ∧ r.parts.map Pattern.wants = rule.seq.map PAtom.wants := by
  obtain ⟨args, -, h⟩ := except_bind_ok h
  cases h
  obtain ⟨hplain, hwants⟩ := formAtoms_plain rule.seq []
  exact ⟨⟨rfl, hplain⟩, hwants⟩

/-- A rule takes what it renders, whatever fills the slots. -/
theorem pins_render {values : List (String × Templates.Item String)} : ∀ {seq : List PAtom}
    {items : List (Templates.Item String)}, seq.mapM (PAtom.render .const values) = some items →
      Templates.pins (seq.map PAtom.wants) items = some []
  | [], items, h => by
      cases h
      rfl
  | a :: seq, items, h => by
      obtain ⟨x, rest, hx, hrest, rfl⟩ := mapM_cons_some.1 h
      cases a with
      | lit s =>
        cases hx
        rw [List.map_cons, PAtom.wants, Templates.pins, if_pos rfl]
        exact pins_render hrest
      | bind name =>
        have hpins : Templates.pins (seq.map PAtom.wants) rest = some [] := pins_render hrest
        exact hpins

/-- The slots of a message are its arguments. -/
theorem slots_render {values : List (String × Templates.Item String)} {n : Nat}
    (hvalues : ∀ e ∈ values, ∀ i, e.2 = .slot i → i < n) : ∀ {seq : List PAtom} {items : List (Templates.Item String)},
      seq.mapM (PAtom.render .const values) = some items → ∀ i, .slot i ∈ items → i < n
  | [], items, h => by
      cases h
      exact fun _ h => absurd h List.not_mem_nil
  | a :: seq, items, h => by
      obtain ⟨x, rest, hx, hrest, rfl⟩ := mapM_cons_some.1 h
      intro i hi
      rcases List.mem_cons.1 hi with rfl | hi
      · cases a with
        | lit s => cases hx
        | bind name =>
          obtain ⟨e, he, heq⟩ := Option.map_eq_some_iff.1 hx
          exact hvalues e (List.mem_of_find?_eq_some he) i heq
      · exact slots_render hvalues hrest i hi

theorem messageTemplate_ok {rules : List FormRule} {tag : String} {arity : Nat} {items : List (Templates.Item String)}
    (h : messageTemplate rules tag arity = some items) : (∃ rule ∈ rules, rule.ctorArgs.length = arity ∧
      Templates.pins (rule.seq.map PAtom.wants) items = some []) ∧ ∀ i, .slot i ∈ items → i < arity := by
  unfold messageTemplate at h
  split at h
  · rename_i found hfound
    cases h
    have hmem : some items ∈ (rules.filter fun rule => rule.tag = tag ∧ rule.ctorArgs.length = arity).map
        FormRule.template := List.reduceOption_mem_iff.1 (hfound ▸ List.mem_singleton_self items)
    obtain ⟨rule, hrule, htemplate⟩ := List.mem_map.1 hmem
    obtain ⟨hrule, hwanted⟩ := List.mem_filter.1 hrule
    obtain ⟨-, hlen⟩ := of_decide_eq_true hwanted
    unfold FormRule.template at htemplate
    split_ifs at htemplate
    refine ⟨⟨rule, hrule, hlen, pins_render htemplate⟩, slots_render (fun e he i hi => ?_) htemplate⟩
    obtain ⟨j, hj, hslot⟩ := List.mem_map.1 (List.of_mem_zip he).2
    obtain rfl : j = i := by rw [hi] at hslot; exact Templates.Item.slot.inj hslot
    exact hlen ▸ List.mem_range.1 hj
  · cases h

/-! ## What arrives -/

/-- A handler parses a message as a constructor with its arguments, and runs the arm for it. -/
structure CompiledHandler.Receives (h : CompiledHandler) (tag : String) (texts : List String) (message : Tuple) :
    Prop where
  parses : ∃ rest, h.form.parseAll message.cells = some (constructed tag texts :: rest)
  runs : ∃ arm ∈ h.arms, arm.tag = tag ∧ arm.vars.length = texts.length ∧
    ∀ fl prog grants tries selfEntity snap, h.run fl prog grants tries selfEntity snap message = (do
      let patch ← BehaviorIr.execute fl prog grants tries selfEntity snap arm.ir (arm.vars.zip (texts.map .text))
      return patch.getD Patch.new)

namespace HandlerProgram

variable (prog : HandlerProgram) (target tag : String) (arity : Nat)

/-- The handler of an actor's inbox, if it compiles. -/
def targetHandler : Option CompiledHandler := do
  let actor ← prog.actor target
  (prog.behavior actor.inbox).toOption

/-- **A scheduled message arrives**: of every statement that compiles and all texts of its
arguments, the target's handler receives the message it schedules. -/
def Arrives : Prop :=
  ∀ (locals locals' : Types) (capability : String) (due : Expr) (arguments : List Expr) (t d : ExprIr)
      (body : List ExprIr), arguments.length = arity →
    prog.lowerStmt locals (.schedule capability due tag arguments target)
      = .ok (.invokeCapability capability (t :: d :: body) [], locals') →
    ∀ (fl : FloatOps) (env : Locals) (irs : List ExprIr) (texts : List String),
      prog.lowerTexts locals arguments = .ok irs → evalExprs fl env irs = .ok (texts.map .text) →
        ∃ message h, evalExprs fl env body = .ok message ∧ prog.targetHandler target = some h ∧
          h.Receives tag texts ⟨message⟩

/-- If a message can be scheduled, the target's handler compiles and has an arm for it, and
each rule of its form that takes some of the message's tokens constructs the message of all
it takes, or comes after a rule that takes all these. -/
def CanArrive : Prop :=
  ∀ capability rel rules items, prog.capability capability = some (.schedule, rel) →
    prog.targetRules target = some rules → messageTemplate rules tag arity = some items →
      ∃ h, prog.targetHandler target = some h ∧ (h.arm tag arity).isSome = true ∧
        Templates.Sound (h.form.rules.map (RuleIr.answer items)) tag ((List.range arity).map .slot) items

end HandlerProgram

section Arriving

variable {prog : HandlerProgram} {target tag : String} {arity : Nat}

/-- A target's handler has its rules, compiled. -/
theorem targetHandler_rules {h : CompiledHandler} {rules : List FormRule} (hh : prog.targetHandler target = some h)
    (hrules : prog.targetRules target = some rules) : rules.mapM formRule = .ok h.form.rules := by
  obtain ⟨actor, hactor, hh⟩ := Option.bind_eq_some_iff.1 hh
  obtain ⟨actor', hactor', hrules⟩ := Option.bind_eq_some_iff.1 hrules
  obtain rfl := Option.some.inj (hactor.symm.trans hactor')
  obtain ⟨on_, hon, hform⟩ := Option.bind_eq_some_iff.1 hrules
  cases hb : prog.behavior actor.inbox with
  | error e =>
    rw [hb] at hh
    cases hh
  | ok h' =>
    rw [hb] at hh
    cases hh
    unfold HandlerProgram.behavior at hb
    rw [hon] at hb
    obtain ⟨form, hcomp, hb⟩ := except_bind_ok hb
    obtain ⟨arms, -, hb⟩ := except_bind_ok hb
    obtain ⟨concatArms, -, hb⟩ := except_bind_ok hb
    cases hb
    unfold HandlerProgram.formIr at hcomp
    rw [hform] at hcomp
    obtain ⟨compiled, hcompiled, hcomp⟩ := except_bind_ok hcomp
    cases hcomp
    exact hcompiled

/-- A compiled handler parses every filling of a message as it was meant if and only if its
rules are sound. -/
theorem parses_iff {form : FormIr} {rules : List FormRule} {items : List (Templates.Item String)}
    (hcompiled : rules.mapM formRule = .ok form.rules) (hitems : messageTemplate rules tag arity = some items) :
    Templates.Sound (form.rules.map (RuleIr.answer items)) tag ((List.range arity).map .slot) items ↔
      ∀ texts : List String, texts.length = arity → ∃ rest,
        form.parseAll (filled items fun i => texts.getD i "") = some (constructed tag texts :: rest) := by
  obtain ⟨⟨rule, hrule, -, hpins⟩, hslots⟩ := messageTemplate_ok hitems
  obtain ⟨hall, hof⟩ := mapM_mem hcompiled
  have hplain : ∀ r ∈ form.rules, r.Plain := fun r hr => by
    obtain ⟨a, -, ha⟩ := hof r hr
    exact (formRule_plain ha).1
  -- the rule that renders the message takes it, however it is filled
  have hsome : ∀ σ, ∃ r, (form.rules.map (RuleIr.answer items)).find?
      (fun r => Templates.Takes r.mask (items.map (·.fill σ))) = some r := by
    intro σ
    obtain ⟨r, hr, hcomp⟩ := hall rule hrule
    refine Option.isSome_iff_exists.1 (List.find?_isSome.2 ⟨r.answer items, List.mem_map_of_mem hr, ?_⟩)
    refine decide_eq_true (Templates.takes_fill.2 ⟨[], ?_, fun _ he => absurd he List.not_mem_nil⟩)
    rw [RuleIr.answer, (formRule_plain hcomp).2]
    exact hpins
  have hhead : ∀ σ, (form.parseAll (filled items σ)).map List.head? = some (((form.rules.map (RuleIr.answer items)).find?
      (fun r => Templates.Takes r.mask (items.map (·.fill σ)))).map fun r =>
        constructed r.tag (r.built.map (·.fill σ))) := by
    intro σ
    rw [parseAll_plain hplain, Option.map_some, List.head?_map, List.head?_filter, List.find?_map, Option.map_map]
    rfl
  have hgoal : ∀ texts : List String, texts.length = arity →
      ((List.range arity).map Templates.Item.slot).map (·.fill fun i => texts.getD i "") = texts := by
    rintro texts rfl
    refine List.ext_getElem (by simp) fun i hi hi' => ?_
    simp only [List.getElem_map, List.getElem_range, Templates.Item.fill]
    rw [List.getD_eq_getElem?_getD, List.getElem?_eq_getElem hi', Option.getD_some]
  rw [Templates.sound_iff]
  constructor
  · intro h texts hlen
    obtain ⟨r, hr⟩ := hsome fun i => texts.getD i ""
    obtain ⟨htag, hbuilt⟩ := h _ r hr
    have hfirst := hhead fun i => texts.getD i ""
    rw [hr, Option.map_some, htag, hbuilt, hgoal texts hlen] at hfirst
    obtain ⟨parses, hparses, hhd⟩ := Option.map_eq_some_iff.1 hfirst
    obtain ⟨rest, rfl⟩ := List.head?_eq_some_iff.1 hhd
    exact ⟨rest, hparses⟩
  · intro h σ r hr
    let texts := (List.range arity).map σ
    have hlen : texts.length = arity := by simp [texts]
    have hsame : ∀ i < arity, texts.getD i "" = σ i := fun i hi => by
      rw [List.getD_eq_getElem?_getD, List.getElem?_eq_getElem (hlen.symm ▸ hi), Option.getD_some]
      simp [texts]
    have hfill : items.map (·.fill fun i => texts.getD i "") = items.map (·.fill σ) := by
      refine List.map_congr_left fun x hx => ?_
      cases x with
      | const s => rfl
      | slot i => exact hsame i (hslots i hx)
    obtain ⟨rest, hrest⟩ := h texts hlen
    have hfirst := hhead σ
    rw [hr, filled, ← hfill, ← filled, hrest] at hfirst
    have heq : constructed tag texts = constructed r.tag (r.built.map (·.fill σ)) := by
      simpa using hfirst
    simp only [constructed, Value.tuple.injEq, List.cons.injEq, Value.text.injEq] at heq
    refine ⟨heq.1.symm, ?_⟩
    have hbuilt : texts = r.built.map (·.fill σ) := List.map_injective_iff.2 (fun _ _ h => Value.text.inj h) heq.2
    rw [← hbuilt, List.map_map]
    rfl

/-- The arm a handler has for a constructor. -/
theorem arm_ok {h : CompiledHandler} {arm : CompiledArm} (harm : h.arm tag arity = some arm) :
    arm ∈ h.arms ∧ arm.tag = tag ∧ arm.vars.length = arity := by
  have hfound := List.find?_some harm
  rw [decide_eq_true_eq] at hfound
  exact ⟨List.mem_of_find?_eq_some harm, hfound.1, hfound.2.symm⟩

theorem receives_of {h : CompiledHandler} {texts : List String} {message : Tuple} {rest : List Value}
    (harm : (h.arm tag texts.length).isSome = true)
    (hparses : h.form.parseAll message.cells = some (constructed tag texts :: rest)) : h.Receives tag texts message := by
  obtain ⟨arm, harm⟩ := Option.isSome_iff_exists.1 harm
  obtain ⟨hmem, htag, hlen⟩ := arm_ok harm
  refine ⟨⟨rest, hparses⟩, arm, hmem, htag, hlen, fun fl prog grants tries selfEntity snap => ?_⟩
  rw [← List.length_map (f := Value.text)] at harm
  unfold CompiledHandler.run
  rw [hparses]
  dsimp only [List.head?_cons, constructed]
  rw [harm]

/-- A statement that schedules a message renders it. -/
theorem lowerSchedule_ok {locals locals' : Types} {capability : String} {due : Expr} {arguments : List Expr}
    {t d : ExprIr} {body : List ExprIr}
    (h : prog.lowerStmt locals (.schedule capability due tag arguments target)
      = .ok (.invokeCapability capability (t :: d :: body) [], locals')) :
    (∃ rel, prog.capability capability = some (.schedule, rel)) ∧
      prog.renderActorMessage target tag arguments locals = .ok body := by
  rw [HandlerProgram.lowerStmt] at h
  obtain ⟨_, hcap, h⟩ := except_bind_ok h
  obtain ⟨_, -, h⟩ := except_bind_ok h
  obtain ⟨_, -, h⟩ := except_bind_ok h
  obtain ⟨rendered, hrendered, h⟩ := except_bind_ok h
  cases h
  refine ⟨?_, hrendered⟩
  unfold HandlerProgram.requireCapability at hcap
  split at hcap
  · cases hcap
  · rename_i kind rel hkind
    split_ifs at hcap with hne
    exact ⟨rel, by rw [hkind, not_not.1 hne]⟩

theorem lowerTexts_literal (prog : HandlerProgram) (locals : Types) : ∀ texts : List String,
    prog.lowerTexts locals (texts.map fun s => .lit (.text s)) = .ok (texts.map ExprIr.text)
  | [] => rfl
  | s :: texts => by
      rw [List.map_cons, HandlerProgram.lowerTexts, lowerExpr]
      show (do return ExprIr.text s :: (← prog.lowerTexts locals (texts.map fun s => .lit (.text s)))) = _
      rw [ok_bind (lowerTexts_literal prog locals texts)]
      rfl

theorem evalExprs_literal (fl : FloatOps) (env : Locals) : ∀ texts : List String,
    evalExprs fl env (texts.map ExprIr.text) = .ok (texts.map .text)
  | [] => rfl
  | _ :: texts => evalExprs_cons rfl (evalExprs_literal fl env texts)

/-- What is written with texts for arguments is scheduled, where a message can be. -/
theorem lowerSchedule_literal {capability : String} {rel : RelId} {rules : List FormRule}
    {items : List (Templates.Item String)} (hcap : prog.capability capability = some (.schedule, rel))
    (hrules : prog.targetRules target = some rules) {texts : List String}
    (hitems : messageTemplate rules tag texts.length = some items) :
    prog.lowerStmt [] (.schedule capability (.lit (.int 0)) tag (texts.map fun s => .lit (.text s)) target)
      = .ok (.invokeCapability capability (.text target :: .value (.literal (.int 0)) ::
          items.map (instantiate (texts.map ExprIr.text))) [], []) := by
  have hrequired : prog.requireCapability "schedule" "a scheduler" capability .schedule = .ok () := by
    unfold HandlerProgram.requireCapability
    rw [hcap]
    rfl
  have hrendered : prog.renderActorMessage target tag (texts.map fun s => .lit (.text s)) []
      = .ok (items.map (instantiate (texts.map ExprIr.text))) :=
    (renderActorMessage_iff (lowerTexts_literal prog [] texts)).2
      ⟨rules, items, hrules, by rwa [List.length_map], rfl⟩
  rw [HandlerProgram.lowerStmt, ok_bind hrequired]
  show (do
    let body ← prog.renderActorMessage target tag (texts.map fun s => .lit (.text s)) []
    return (BehaviorOp.invokeCapability capability (.text target :: .value (.literal (.int 0)) :: body) [], [])) = _
  rw [ok_bind hrendered]
  rfl

/-- **A scheduled message arrives, whatever texts it carries, if and only if each rule of
the target's form that takes some of its tokens constructs it of all it takes or comes after
one that takes all these, and the target's handler has an arm for it.** -/
theorem scheduled_arrives (prog : HandlerProgram) (target tag : String) (arity : Nat) :
    prog.Arrives target tag arity ↔ prog.CanArrive target tag arity := by
  constructor
  · intro h capability rel rules items hcap hrules hitems
    have hreceived : ∀ texts : List String, texts.length = arity → ∃ handler, prog.targetHandler target = some handler ∧
        handler.Receives tag texts ⟨filled items fun i => texts.getD i ""⟩ := by
      rintro texts rfl
      obtain ⟨message, handler, hmessage, hhandler, hreceives⟩ := h [] [] capability _ _ _ _ _
        (List.length_map _) (lowerSchedule_literal hcap hrules hitems) plainFloats [] _ texts
        (lowerTexts_literal prog [] texts) (evalExprs_literal _ _ texts)
      rw [evalExprs_instantiate (evalExprs_literal _ _ texts)] at hmessage
      cases hmessage
      exact ⟨handler, hhandler, hreceives⟩
    obtain ⟨handler, hhandler, hreceives⟩ := hreceived (List.replicate arity "") List.length_replicate
    refine ⟨handler, hhandler, ?_, (parses_iff (targetHandler_rules hhandler hrules) hitems).2 fun texts hlen => ?_⟩
    · obtain ⟨arm, harm, htag, hlen, -⟩ := hreceives.runs
      rw [List.length_replicate] at hlen
      exact List.find?_isSome.2 ⟨arm, harm, decide_eq_true ⟨htag, hlen.symm⟩⟩
    · obtain ⟨handler', hhandler', hreceives'⟩ := hreceived texts hlen
      obtain rfl := Option.some.inj (hhandler.symm.trans hhandler')
      exact hreceives'.parses
  · intro h locals locals' capability due arguments t d body hlen hstmt fl env irs texts hlower heval
    obtain ⟨⟨rel, hcap⟩, hrender⟩ := lowerSchedule_ok hstmt
    obtain ⟨rules, items, hrules, hitems, rfl⟩ := (renderActorMessage_iff hlower).1 hrender
    rw [hlen] at hitems
    obtain ⟨handler, hhandler, harm, hsound⟩ := h capability rel rules items hcap hrules hitems
    have htexts : texts.length = arity := by
      have hsame := mapM_length heval
      rwa [List.length_map, lowerTexts_length hlower, hlen] at hsame
    obtain ⟨rest, hparses⟩ := (parses_iff (targetHandler_rules hhandler hrules) hitems).1 hsound texts htexts
    exact ⟨_, handler, evalExprs_instantiate heval items, hhandler, receives_of (htexts ▸ harm) hparses⟩

end Arriving

/-! ## A message that is captured -/

/-- `go home` is said in two ways. -/
def goingProgram : HandlerProgram where
  rels := [⟨"timers", 10, timersSchema.columns⟩]
  views := []
  entities := []
  contexts := []
  viewCursor := none
  capabilities := [("clock", .schedule, 10)]
  forms := [("going", [⟨[.lit "go", .lit "home"], "Home", []⟩, ⟨[.lit "go", .bind "place"], "Go", ["place"]⟩])]
  ons := [("told", ⟨"going", [⟨"Home", [], []⟩, ⟨"Go", ["place"], []⟩], []⟩)]
  actors := [("cat", ⟨"told"⟩)]

/-- **A message whose argument is a literal of another rule is taken by that rule.** -/
theorem scheduled_captured : ¬ ∀ (prog : HandlerProgram) (target tag : String) (arity : Nat),
    prog.Arrives target tag arity := by
  intro h
  obtain ⟨message, handler, hmessage, hhandler, hreceives⟩ := h goingProgram "cat" "Go" 1 [] [] "clock"
    (.lit (.int 0)) [.lit (.text "home")] _ _ [.text "go", .text "home"] rfl rfl plainFloats [] _ ["home"] rfl rfl
  cases hmessage
  cases hhandler
  obtain ⟨rest, hrest⟩ := hreceives.parses
  have hfirst : FormIr.parseAll ⟨[⟨.seq [.lit (.text "go"), .lit (.text "home")], ⟨"Home", []⟩⟩,
      ⟨.seq [.lit (.text "go"), .bind 0], ⟨"Go", [0]⟩⟩]⟩ [.text "go", .text "home"]
        = some [constructed "Home" [], constructed "Go" ["home"]] := by decide +kernel
  have heq := (List.cons.inj (Option.some.inj (hfirst.symm.trans hrest))).1
  exact absurd heq (by decide)

end Grmpl
