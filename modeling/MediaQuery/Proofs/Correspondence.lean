import MediaQuery.Proofs.Parser

set_option autoImplicit false

namespace MediaQuery

section Kinds

variable {σ : Token → Token} {t u : Token} {ts : List Token}

theorem Token.isOpening_of_kind (same : u.kind = t.kind) : u.isOpening = t.isOpening := by
  rw [isOpening, isOpening, same]

theorem Token.isClosing_of_kind (same : u.kind = t.kind) : u.isClosing = t.isClosing := by
  rw [isClosing, isClosing, same]

theorem Token.ident?_of_kind (same : u.kind = t.kind) : u.ident? = t.ident? := by
  rw [ident?, ident?, same]

theorem Token.isComma_of_kind (same : u.kind = t.kind) : u.isComma = t.isComma := by
  rw [isComma, isComma, same]

theorem Token.comparison?_of_kind (same : u.kind = t.kind) : u.comparison? = t.comparison? := by
  rw [comparison?, comparison?, same]

/-- Tokens balance by their kinds, if what may stand outside of parentheses is said of kinds. -/
theorem Balanced.map {top : Token → Bool} (kinds : ∀ t ∈ ts, (σ t).kind = t.kind)
    (byKind : ∀ t u : Token, u.kind = t.kind → top u = top t) (balanced : Balanced top ts) :
    Balanced top (ts.map σ) := by
  induction balanced with
  | nil => exact .nil
  | token noOpener noCloser allowed rest ih =>
    rw [List.forall_mem_cons] at kinds
    exact .token (by rwa [Token.isOpening_of_kind kinds.1])
      (by rwa [Token.isClosing_of_kind kinds.1]) (by rwa [byKind _ _ kinds.1]) (ih kinds.2 byKind)
  | parens opens closes within rest ihWithin ihRest =>
    simp only [List.forall_mem_cons, List.forall_mem_append] at kinds
    rw [List.map_cons, List.map_append, List.map_cons]
    exact .parens (by rwa [Token.isOpening_of_kind kinds.1])
      (by rwa [Token.isClosing_of_kind kinds.2.2.1]) (ihWithin kinds.2.1 fun _ _ _ => rfl)
      (ihRest kinds.2.2.2 byKind)

theorem Value.Form.map {v : Value} (kinds : ∀ t ∈ ts, (σ t).kind = t.kind)
    (form : Value.Form ts v) : Value.Form (ts.map σ) v := by
  cases form with
  | number kind => exact .number ((kinds _ (by simp)).trans kind)
  | dimension kind => exact .dimension ((kinds _ (by simp)).trans kind)
  | ident kind => exact .ident ((kinds _ (by simp)).trans kind)
  | ratio numerator slash denominator =>
    exact .ratio ((kinds _ (by simp)).trans numerator) ((kinds _ (by simp)).trans slash)
      ((kinds _ (by simp)).trans denominator)

theorem Feature.Form.map {f : Feature} (kinds : ∀ t ∈ ts, (σ t).kind = t.kind)
    (form : Feature.Form ts f) : Feature.Form (ts.map σ) f := by
  cases form with
  | boolean named =>
    simp only [List.forall_mem_cons] at kinds
    exact .boolean (by rwa [Token.ident?_of_kind kinds.1])
  | plain named isColon written =>
    simp only [List.forall_mem_cons] at kinds
    exact .plain (by rwa [Token.ident?_of_kind kinds.1]) (kinds.2.1.trans isColon)
      (written.map kinds.2.2)
  | right named compares written =>
    simp only [List.forall_mem_cons] at kinds
    exact .right (by rwa [Token.ident?_of_kind kinds.1])
      (by rwa [Token.comparison?_of_kind kinds.2.1]) (written.map kinds.2.2)
  | left named compares written =>
    simp only [List.forall_mem_append, List.forall_mem_cons] at kinds
    rw [List.map_append]
    exact .left (by rwa [Token.ident?_of_kind kinds.2.2.1])
      (by rwa [Token.comparison?_of_kind kinds.2.1]) (written.map kinds.1)
  | both named comparesLow comparesHigh along writtenLow writtenHigh =>
    simp only [List.forall_mem_append, List.forall_mem_cons] at kinds
    rw [List.map_append]
    exact .both (by rwa [Token.ident?_of_kind kinds.2.2.1])
      (by rwa [Token.comparison?_of_kind kinds.2.1])
      (by rwa [Token.comparison?_of_kind kinds.2.2.2.1]) along (writtenLow.map kinds.1)
      (writtenHigh.map kinds.2.2.2.2)

theorem Feature.Reads.map {f : Feature} (kinds : ∀ t ∈ ts, (σ t).kind = t.kind)
    (reads : Feature.Reads ts f) : Feature.Reads (ts.map σ) f :=
  ⟨reads.1.map kinds, reads.2⟩

end Kinds

section Outlines

mutual

/-- An item without its texts. -/
def InParens.outline : InParens → InParens
  | .condition condition => .condition condition.outline
  | .feature feature => .feature feature
  | .enclosed _ => .enclosed ""

def InParens.allOutlines : List InParens → List InParens
  | [] => []
  | item :: items => item.outline :: InParens.allOutlines items

def Condition.outline : Condition → Condition
  | .and items => .and (InParens.allOutlines items)
  | .or items => .or (InParens.allOutlines items)
  | .not item => .not item.outline

end

def Query.outline (q : Query) : Query := { q with condition := q.condition.map Condition.outline }

def QueryList.outline (list : QueryList) : QueryList := list.map Query.outline

mutual

theorem InParens.length_texts_outline : ∀ x : InParens,
    x.outline.texts.length = x.texts.length
  | .condition c => c.length_texts_outline
  | .feature _ => rfl
  | .enclosed _ => rfl

theorem InParens.length_allTexts_outline : ∀ xs : List InParens,
    (InParens.allTexts (InParens.allOutlines xs)).length = (InParens.allTexts xs).length
  | [] => rfl
  | x :: xs => by
    rw [InParens.allOutlines, InParens.allTexts, InParens.allTexts, List.length_append,
      List.length_append, x.length_texts_outline, InParens.length_allTexts_outline xs]

theorem Condition.length_texts_outline : ∀ c : Condition,
    c.outline.texts.length = c.texts.length
  | .and items => InParens.length_allTexts_outline items
  | .or items => InParens.length_allTexts_outline items
  | .not item => item.length_texts_outline

end

mutual

/-- An item is known by its outline and its texts. -/
theorem InParens.eq_of_outline : ∀ x x' : InParens, x'.outline = x.outline →
    x'.texts = x.texts → x' = x
  | .condition c, x', outlines, texts => by
    cases x' with
    | condition c' =>
      exact congrArg _ (c.eq_of_outline c' (InParens.condition.inj outlines) texts)
    | _ => cases outlines
  | .feature f, x', outlines, _ => by
    cases x' with
    | feature f' => exact outlines
    | _ => cases outlines
  | .enclosed text, x', outlines, texts => by
    cases x' with
    | enclosed text' => exact congrArg _ (List.cons.inj texts).1
    | _ => cases outlines

theorem InParens.all_eq_of_outline : ∀ xs xs' : List InParens,
    InParens.allOutlines xs' = InParens.allOutlines xs →
    InParens.allTexts xs' = InParens.allTexts xs → xs' = xs
  | [], xs', outlines, _ => by
    cases xs' with
    | nil => rfl
    | cons => cases outlines
  | x :: xs, xs', outlines, texts => by
    cases xs' with
    | nil => cases outlines
    | cons x' xs' =>
      obtain ⟨first, rest⟩ := List.cons.inj outlines
      have length : x'.texts.length = x.texts.length := by
        rw [← x'.length_texts_outline, first, x.length_texts_outline]
      obtain ⟨front, behind⟩ := List.append_inj texts length
      rw [x.eq_of_outline x' first front, InParens.all_eq_of_outline xs xs' rest behind]

theorem Condition.eq_of_outline : ∀ c c' : Condition, c'.outline = c.outline →
    c'.texts = c.texts → c' = c
  | .and items, c', outlines, texts => by
    cases c' with
    | and items' =>
      exact congrArg _ (InParens.all_eq_of_outline items items' (Condition.and.inj outlines) texts)
    | _ => cases outlines
  | .or items, c', outlines, texts => by
    cases c' with
    | or items' =>
      exact congrArg _ (InParens.all_eq_of_outline items items' (Condition.or.inj outlines) texts)
    | _ => cases outlines
  | .not item, c', outlines, texts => by
    cases c' with
    | not item' =>
      exact congrArg _ (item.eq_of_outline item' (Condition.not.inj outlines) texts)
    | _ => cases outlines

end

end Outlines

/-- Tokens and those that correspond to them: `there` leads to tokens of the same kinds and `back`
from them. -/
structure Paired (there back : Token → Token) (ts : List Token) : Prop where
  returns : ∀ t ∈ ts, back (there t) = t
  kind : ∀ t ∈ ts, (there t).kind = t.kind

namespace Paired

variable {there back : Token → Token} {ts us : List Token}

theorem subset (paired : Paired there back ts) (sub : us ⊆ ts) : Paired there back us :=
  ⟨fun t mem => paired.returns t (sub mem), fun t mem => paired.kind t (sub mem)⟩

theorem map_back (paired : Paired there back ts) : (ts.map there).map back = ts := by
  rw [List.map_map]
  exact (List.map_congr_left paired.returns).trans (List.map_id ts)

theorem symm (paired : Paired there back ts) : Paired back there (ts.map there) := by
  constructor <;> simp only [List.forall_mem_map] <;> intro t mem
  · rw [paired.returns t mem]
  · rw [paired.returns t mem, paired.kind t mem]

end Paired

/-- Pairs of parentheses in tokens, from left to right and none of them inside of another one. -/
inductive Enclosures : List Token → List (Token × Token) → Prop where
  | nil {ts : List Token} : Enclosures ts []
  | cons {front inside behind : List Token} {opener closer : Token} {spans : List (Token × Token)}
      (opens : opener.isOpening = true) (closes : closer.isClosing = true)
      (balanced : Balanced (fun _ => true) inside) (rest : Enclosures behind spans) :
      Enclosures (front ++ opener :: (inside ++ closer :: behind)) ((opener, closer) :: spans)

theorem Enclosures.append {us vs : List Token} {spans spans' : List (Token × Token)}
    (left : Enclosures us spans) (right : Enclosures vs spans') :
    Enclosures (us ++ vs) (spans ++ spans') := by
  induction left with
  | @nil us =>
    cases right with
    | nil => exact .nil
    | cons opens closes balanced rest =>
      rw [← List.append_assoc]
      exact .cons opens closes balanced rest
  | @cons front inside behind opener closer spans opens closes balanced rest ih =>
    have whole : Enclosures (front ++ opener :: (inside ++ closer :: (behind ++ vs)))
        ((opener, closer) :: (spans ++ spans')) := .cons opens closes balanced ih
    simpa using whole

theorem Enclosures.mem {ts : List Token} {spans : List (Token × Token)}
    (enclosures : Enclosures ts spans) : ∀ span ∈ spans, span.1 ∈ ts ∧ span.2 ∈ ts := by
  induction enclosures with
  | nil => simp
  | cons opens closes balanced rest ih =>
    refine List.forall_mem_cons.2 ⟨by simp, fun span mem => ?_⟩
    have inside := ih span mem
    simp [inside.1, inside.2]

/-- The text of a source from one token to another one, both of them included. -/
def Text.between (source : List Char) (opener closer : Token) : String :=
  String.ofList (Text.slice source opener.start closer.stop)

/-- Texts that stand between the same parentheses of some tokens, in a source and in another one
where the tokens stand elsewhere. -/
def SameSpans (source source' : List Char) (there : Token → Token) (ts : List Token)
    (texts texts' : List String) : Prop :=
  ∃ spans, Enclosures ts spans ∧
    texts = spans.map (fun span => Text.between source span.1 span.2) ∧
    texts' = spans.map fun span => Text.between source' (there span.1) (there span.2)

namespace SameSpans

variable {source source' : List Char} {there : Token → Token} {us vs : List Token}
  {xs xs' ys ys' : List String}

theorem nil (ts : List Token) : SameSpans source source' there ts [] [] := ⟨[], .nil, rfl, rfl⟩

theorem append (left : SameSpans source source' there us xs xs')
    (right : SameSpans source source' there vs ys ys') :
    SameSpans source source' there (us ++ vs) (xs ++ ys) (xs' ++ ys') := by
  obtain ⟨spans, enclosures, rfl, rfl⟩ := left
  obtain ⟨spans', enclosures', rfl, rfl⟩ := right
  exact ⟨spans ++ spans', enclosures.append enclosures', by simp, by simp⟩

theorem prepend (right : SameSpans source source' there vs ys ys') (us : List Token) :
    SameSpans source source' there (us ++ vs) ys ys' := (nil us).append right

theorem extend (left : SameSpans source source' there us xs xs') (vs : List Token) :
    SameSpans source source' there (us ++ vs) xs xs' := by
  have whole := left.append (nil vs)
  rwa [List.append_nil, List.append_nil] at whole

theorem parens {opener closer : Token} {inside : List Token} (opens : opener.isOpening = true)
    (closes : closer.isClosing = true) (balanced : Balanced (fun _ => true) inside) :
    SameSpans source source' there (opener :: (inside ++ [closer]))
      [Text.between source opener closer]
      [Text.between source' (there opener) (there closer)] := by
  have enclosures : Enclosures ([] ++ opener :: (inside ++ [closer])) [(opener, closer)] :=
    .cons opens closes balanced .nil
  exact ⟨_, enclosures, rfl, rfl⟩

end SameSpans

/-- Trees with the same outline, whose texts stand between the same parentheses. -/
structure Alike {α : Type} (outline : α → α) (texts : α → List String)
    (source source' : List Char) (there : Token → Token) (ts : List Token) (x x' : α) : Prop where
  outline : outline x' = outline x
  texts : SameSpans source source' there ts (texts x) (texts x')

section Derivations

variable {source source' : List Char} {there back : Token → Token} {ts : List Token}
  {item item' : List Token → InParens → Prop} {nested nested' : List Token → Condition → Prop}

/-- Items of tokens that correspond, if the conditions inside of their parentheses do. -/
theorem InParens.Form.exists_alike {x : InParens} (paired : Paired there back ts)
    (forth : ∀ us ⊆ ts, us.length < ts.length → ∀ c, nested us c → ∃ c', nested' (us.map there) c' ∧
      Alike Condition.outline Condition.texts source source' there us c c')
    (conversely : ∀ us ⊆ ts, us.length < ts.length → ∀ c', nested' (us.map there) c' →
      ∃ c, nested us c)
    (form : InParens.Form source nested Feature.Reads ts x) :
    ∃ x', InParens.Form source' nested' Feature.Reads (ts.map there) x' ∧
      Alike InParens.outline InParens.texts source source' there ts x x' := by
  have parts {o c : Token} {inside : List Token} (whole : ts = o :: (inside ++ [c])) :
      ts.map there = there o :: (inside.map there ++ [there c]) ∧
        (there o).kind = o.kind ∧ (there c).isClosing = c.isClosing ∧
        Paired there back inside ∧ inside ⊆ ts ∧ inside.length < ts.length := by
    subst whole
    have sub : inside ⊆ o :: (inside ++ [c]) := fun t mem => by simp [mem]
    refine ⟨by simp, paired.kind o (by simp), Token.isClosing_of_kind (paired.kind c (by simp)),
      paired.subset sub, sub, ?_⟩
    simp only [List.length_cons, List.length_append]
    omega
  have kept {o c : Token} {inside : List Token} (whole : ts = o :: (inside ++ [c]))
      (opens : o.isOpening = true) (closes : c.isClosing = true)
      (balanced : Balanced (fun _ => true) inside) :
      Alike InParens.outline InParens.texts source source' there ts
        (.enclosed (Text.between source o c))
        (.enclosed (Text.between source' (there o) (there c))) := by
    subst whole
    exact ⟨rfl, .parens opens closes balanced⟩
  cases form with
  | @function o c inside name opens closes balanced =>
    obtain ⟨shape, kind, closing, within, _⟩ := parts rfl
    rw [shape]
    exact ⟨_, .function (kind.trans opens) (closing.trans closes)
      (balanced.map within.kind fun _ _ _ => rfl),
      kept rfl (by simp [Token.isOpening, opens]) closes balanced⟩
  | @condition o c inside inner opens closes balanced whole =>
    obtain ⟨shape, kind, closing, within, sub, shorter⟩ := parts rfl
    obtain ⟨inner', whole', alike⟩ := forth inside sub shorter inner whole
    rw [shape]
    refine ⟨.condition inner', .condition (kind.trans opens) (closing.trans closes)
      (balanced.map within.kind fun _ _ _ => rfl) whole', ?_, ?_⟩
    · rw [InParens.outline, InParens.outline, alike.outline]
    · exact (alike.texts.extend [c]).prepend [o]
  | @feature o c inside f opens closes balanced noCondition whole =>
    obtain ⟨shape, kind, closing, within, sub, shorter⟩ := parts rfl
    rw [shape]
    refine ⟨.feature f, .feature (kind.trans opens) (closing.trans closes)
      (balanced.map within.kind fun _ _ _ => rfl) (fun c' derives => ?_)
      (whole.map within.kind), rfl, .nil _⟩
    obtain ⟨c, derives⟩ := conversely inside sub shorter c' derives
    exact noCondition c derives
  | @enclosed o c inside opens closes balanced noCondition noTest =>
    obtain ⟨shape, kind, closing, within, sub, shorter⟩ := parts rfl
    rw [shape]
    refine ⟨_, .enclosed (kind.trans opens) (closing.trans closes)
      (balanced.map within.kind fun _ _ _ => rfl) (fun c' derives => ?_) (fun f reads => ?_),
      kept rfl (by simp [Token.isOpening, opens]) closes balanced⟩
    · obtain ⟨c, derives⟩ := conversely inside sub shorter c' derives
      exact noCondition c derives
    · refine noTest f ?_
      rw [← within.map_back]
      exact reads.map within.symm.kind

theorem InParens.Following.exists_alike {word : String} {xs : List InParens}
    (kinds : ∀ t ∈ ts, (there t).kind = t.kind)
    (each : ∀ us ⊆ ts, ∀ x, us.length ≤ ts.length → item us x → ∃ x', item' (us.map there) x' ∧
      Alike InParens.outline InParens.texts source source' there us x x')
    (following : InParens.Following item word ts xs) :
    ∃ xs', InParens.Following item' word (ts.map there) xs' ∧
      Alike InParens.allOutlines InParens.allTexts source source' there ts xs xs' := by
  induction following with
  | nil => exact ⟨[], .nil, rfl, .nil _⟩
  | @cons w ts us x xs joined first rest ih =>
    simp only [List.forall_mem_cons, List.forall_mem_append] at kinds
    simp only [List.length_cons, List.length_append] at each
    obtain ⟨x', first', alike⟩ := each ts (by simp) x (by omega) first
    obtain ⟨xs', rest', alike'⟩ := ih kinds.2.2 fun vs sub y bound =>
      each vs (fun t mem => by simp [sub mem]) y (by omega)
    rw [List.map_cons, List.map_append]
    refine ⟨x' :: xs', .cons (by rwa [Token.ident?_of_kind kinds.1]) first' rest', ?_, ?_⟩
    · rw [InParens.allOutlines, InParens.allOutlines, alike.outline, alike'.outline]
    · exact (alike.texts.append alike'.texts).prepend [w]

theorem Condition.Form.exists_alike {allowOr : Bool} {c : Condition}
    (kinds : ∀ t ∈ ts, (there t).kind = t.kind)
    (each : ∀ us ⊆ ts, ∀ x, us.length ≤ ts.length → item us x → ∃ x', item' (us.map there) x' ∧
      Alike InParens.outline InParens.texts source source' there us x x')
    (form : Condition.Form item allowOr ts c) :
    ∃ c', Condition.Form item' allowOr (ts.map there) c' ∧
      Alike Condition.outline Condition.texts source source' there ts c c' := by
  have joined {us vs : List Token} {word : String} {x : InParens} {xs : List InParens}
      (whole : ts = us ++ vs) (first : item us x) (rest : InParens.Following item word vs xs) :
      ∃ x' xs', item' (us.map there) x' ∧ InParens.Following item' word (vs.map there) xs' ∧
        Alike InParens.allOutlines InParens.allTexts source source' there ts (x :: xs)
          (x' :: xs') := by
    subst whole
    rw [List.forall_mem_append] at kinds
    rw [List.length_append] at each
    obtain ⟨x', first', alike⟩ := each us (by simp) x (by omega) first
    obtain ⟨xs', rest', alike'⟩ := rest.exists_alike kinds.2 fun ws sub y bound =>
      each ws (fun t mem => by simp [sub mem]) y (by omega)
    refine ⟨x', xs', first', rest', ?_, alike.texts.append alike'.texts⟩
    rw [InParens.allOutlines, InParens.allOutlines, alike.outline, alike'.outline]
  cases form with
  | @not _ t ts x word whole =>
    obtain ⟨x', whole', alike⟩ := each ts (by simp) x (by simp) whole
    rw [List.forall_mem_cons] at kinds
    refine ⟨.not x', .not (by rwa [Token.ident?_of_kind kinds.1]) whole', ?_, ?_⟩
    · rw [Condition.outline, Condition.outline, alike.outline]
    · exact alike.texts.prepend [t]
  | and first rest =>
    obtain ⟨x', xs', first', rest', alike⟩ := joined rfl first rest
    rw [List.map_append]
    refine ⟨.and (x' :: xs'), .and first' rest', ?_, alike.texts⟩
    rw [Condition.outline, Condition.outline, alike.outline]
  | or first rest several =>
    obtain ⟨x', xs', first', rest', alike⟩ := joined rfl first rest
    rw [List.map_append]
    refine ⟨.or (x' :: xs'), .or first' rest' ?_, ?_, alike.texts⟩
    · rintro rfl
      have outlines := alike.outline
      cases rest with
      | nil => exact several rfl
      | cons => simp [InParens.allOutlines] at outlines
    · rw [Condition.outline, Condition.outline, alike.outline]

theorem Condition.Derives.exists_alike {c : Condition} (paired : Paired there back ts)
    (derives : Condition.Derives Feature.Reads source ts c) :
    ∃ c', Condition.Derives Feature.Reads source' (ts.map there) c' ∧
      Alike Condition.outline Condition.texts source source' there ts c c' := by
  induction length : ts.length using Nat.strongRecOn
    generalizing source source' there back ts c with
  | ind size ih =>
    -- Text inside of parentheses is what is no condition there, so for shorter tokens the way back
    -- is needed, too.
    rw [Condition.derives_iff] at derives
    obtain ⟨c', form, alike⟩ := derives.exists_alike paired.kind fun us sub x bound item =>
      InParens.Form.exists_alike (paired.subset sub)
        (fun vs sub' shorter c nested => ih vs.length (by omega)
          (paired.subset (List.Subset.trans sub' sub)) nested rfl)
        (fun vs sub' shorter c' nested => by
          have within := paired.subset (List.Subset.trans sub' sub)
          obtain ⟨c, derives, _⟩ :
              ∃ c, Condition.Derives Feature.Reads source ((vs.map there).map back) c ∧
                Alike Condition.outline Condition.texts source' source back (vs.map there) c' c :=
            ih (vs.map there).length (by rw [List.length_map]; omega) within.symm nested rfl
          rw [within.map_back] at derives
          exact ⟨c, derives⟩) item
    exact ⟨c', Condition.derives_iff.2 form, alike⟩

theorem InParens.Derives.exists_alike {x : InParens} (paired : Paired there back ts)
    (derives : InParens.Derives Feature.Reads source ts x) :
    ∃ x', InParens.Derives Feature.Reads source' (ts.map there) x' ∧
      Alike InParens.outline InParens.texts source source' there ts x x' := by
  refine InParens.Form.exists_alike paired (fun us sub _ c nested => ?_)
    (fun us sub _ c' nested => ?_) derives
  · exact nested.exists_alike (paired.subset sub)
  · have within := paired.subset sub
    obtain ⟨c, derives, _⟩ :
        ∃ c, Condition.Derives Feature.Reads source ((us.map there).map back) c ∧
          Alike Condition.outline Condition.texts source' source back (us.map there) c' c :=
      nested.exists_alike within.symm
    rw [within.map_back] at derives
    exact ⟨c, derives⟩

theorem Query.beginsCondition_map (kinds : ∀ t ∈ ts, (there t).kind = t.kind) :
    Query.beginsCondition (ts.map there) = Query.beginsCondition ts := by
  cases ts with
  | nil => rfl
  | cons t us =>
    rw [List.forall_mem_cons] at kinds
    rw [List.map_cons, beginsCondition, beginsCondition, Token.isOpening_of_kind kinds.1,
      Token.ident?_of_kind kinds.1]
    cases us with
    | nil => rfl
    | cons u us =>
      have second := kinds.2 u List.mem_cons_self
      simp [Token.isOpening_of_kind second]

theorem Qualifier.Form.map {q : Option Qualifier} (kinds : ∀ t ∈ ts, (there t).kind = t.kind)
    (form : Qualifier.Form ts q) : Qualifier.Form (ts.map there) q := by
  cases form with
  | none => exact .none
  | some spelt known =>
    exact .some (by rwa [Token.ident?_of_kind (kinds _ List.mem_cons_self)]) known

theorem Query.Form.exists_alike {q : Query} (paired : Paired there back ts)
    (form : Query.Form (InParens.Derives Feature.Reads source) ts q) :
    ∃ q', Query.Form (InParens.Derives Feature.Reads source') (ts.map there) q' ∧
      Alike Query.outline Query.texts source source' there ts q q' := by
  have conditions {us : List Token} {allowOr : Bool} {c : Condition} (sub : us ⊆ ts)
      (form : Condition.Form (InParens.Derives Feature.Reads source) allowOr us c) :
      ∃ c', Condition.Form (InParens.Derives Feature.Reads source') allowOr (us.map there) c' ∧
        Alike Condition.outline Condition.texts source source' there us c c' :=
    form.exists_alike (paired.subset sub).kind fun vs sub' x _ item =>
      item.exists_alike (paired.subset (List.Subset.trans sub' sub))
  cases form with
  | condition begins whole =>
    obtain ⟨c', whole', alike⟩ := conditions (fun _ mem => mem) whole
    refine ⟨.ofCondition c', .condition ?_ whole', ?_, alike.texts⟩
    · rwa [Query.beginsCondition_map paired.kind]
    · simp [Query.outline, Query.ofCondition, alike.outline]
  | @typed lead us t qualifier name condition begins qualified named legal behind =>
    have kinds := paired.kind
    simp only [List.forall_mem_append, List.forall_mem_cons] at kinds
    have begins' := Query.beginsCondition_map paired.kind
    rw [begins, List.map_append, List.map_cons] at begins'
    have named' : (there t).ident? = some name := by rwa [Token.ident?_of_kind kinds.2.1]
    rw [List.map_append, List.map_cons]
    cases behind with
    | none =>
      exact ⟨_, .typed begins' (qualified.map kinds.1) named' legal .none, rfl, .nil _⟩
    | @some w vs c joined whole =>
      obtain ⟨c', whole', alike⟩ := conditions (fun u mem => by simp [mem]) whole
      rw [List.forall_mem_cons] at kinds
      have joined' : (there w).ident? = some "and" := by rwa [Token.ident?_of_kind kinds.2.2.1]
      refine ⟨⟨qualifier, MediaType.ofName name, some c'⟩,
        .typed begins' (qualified.map kinds.1) named' legal (.some joined' whole'), ?_, ?_⟩
      · simp [Query.outline, alike.outline]
      · have whole : lead ++ t :: w :: vs = (lead ++ [t]) ++ ([w] ++ vs) := by simp
        rw [whole]
        exact (alike.texts.prepend [w]).prepend (lead ++ [t])

theorem QueryList.Derives.exists_alike {list : QueryList} (paired : Paired there back ts)
    (derives : QueryList.Derives Feature.Reads source ts list) :
    ∃ list', QueryList.Derives Feature.Reads source' (ts.map there) list' ∧
      Alike QueryList.outline QueryList.texts source source' there ts list list' := by
  have commas (t u : Token) (same : u.kind = t.kind) : (!u.isComma) = !t.isComma := by
    rw [Token.isComma_of_kind same]
  rcases derives with ⟨rfl, rfl⟩ | form
  · exact ⟨_, .inl ⟨rfl, rfl⟩, rfl, .nil _⟩
  · suffices further : ∃ list', QueryList.Form (InParens.Derives Feature.Reads source')
        (ts.map there) list' ∧
          Alike QueryList.outline QueryList.texts source source' there ts list list' by
      obtain ⟨list', form', alike⟩ := further
      exact ⟨list', .inr form', alike⟩
    induction form with
    | @last ts q nonempty balanced whole =>
      obtain ⟨q', whole', alike⟩ := whole.exists_alike paired
      refine ⟨[q'], .last (by simpa using nonempty) (balanced.map paired.kind commas) whole',
        ?_, ?_⟩
      · simp [QueryList.outline, alike.outline]
      · simpa [QueryList.texts] using alike.texts
    | @cons ts us comma q qs nonempty balanced whole isComma rest ih =>
      obtain ⟨q', whole', alike⟩ := whole.exists_alike (paired.subset (by simp))
      obtain ⟨qs', rest', alike'⟩ := ih (paired.subset fun t mem => by simp [mem])
      have kind := paired.kind comma (by simp)
      rw [List.map_append, List.map_cons]
      refine ⟨q' :: qs', .cons (by simpa using nonempty) (balanced.map ?_ commas) whole'
        (by rwa [Token.isComma_of_kind kind]) rest', ?_, ?_⟩
      · exact (paired.subset (by simp)).kind
      · rw [QueryList.outline, List.map_cons, alike.outline]
        exact congrArg (q.outline :: ·) alike'.outline
      · exact alike.texts.append (alike'.texts.prepend [comma])

end Derivations

end MediaQuery
