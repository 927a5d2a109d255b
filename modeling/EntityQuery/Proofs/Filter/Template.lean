import EntityQuery.Filter.OfPredicate
import EntityQuery.Proofs.Filter.Reading
import EntityQuery.Proofs.Join.Tree

/-! Templates of filters: rows of tokens whose columns are named by the places of their entities, with no
alias chosen yet. A filter is written by a template where putting the aliases in gives its tokens. -/

namespace EntityQuery

variable {ι : Type}

/-- A column of the entity at a path, or of the root entity. -/
structure ColumnPlace where
  place : Option String
  column : String

namespace Aliases

/-- The alias at a place. -/
def aliasAt (a : Aliases) : Option String → String
  | none => a.root
  | some path => (a.get? path).getD ""

def refAt (a : Aliases) (c : ColumnPlace) : ColumnRef := ⟨a.aliasAt c.place, c.column⟩

/-- The place has an alias. -/
def Knows (a : Aliases) (place : Option String) : Prop :=
  ∀ path, place = some path → (a.get? path).isSome = true

end Aliases

theorem JoinTree.Extends.aliasAt_eq {t t' : JoinTree ι} (h : t.Extends t') {place : Option String}
    (hknows : t.aliases.Knows place) : t'.aliases.aliasAt place = t.aliases.aliasAt place := by
  cases place with
  | none => exact h.rootAlias
  | some path =>
    obtain ⟨aliasName, hget⟩ := Option.isSome_iff_exists.1 (hknows path rfl)
    rw [Aliases.aliasAt, Aliases.aliasAt, hget, h.get? hget]

theorem JoinTree.Extends.knows {t t' : JoinTree ι} (h : t.Extends t') {place : Option String}
    (hknows : t.aliases.Knows place) : t'.aliases.Knows place := by
  intro path hplace
  obtain ⟨aliasName, hget⟩ := Option.isSome_iff_exists.1 (hknows path hplace)
  rw [h.get? hget]
  rfl

namespace FilterToken

variable {κ κ' : Type}

/-- A token with its column replaced. -/
def map (f : κ → κ') : FilterToken κ → FilterToken κ'
  | .column c => .column (f c)
  | .parameter name => .parameter name
  | .symbol text => .symbol text
  | .suffix text => .suffix text
  | .lower => .lower
  | .openParen => .openParen
  | .closeParen => .closeParen
  | .connective c => .connective c
  | .not => .not

theorem write_map (spell : κ' → String) (f : κ → κ') (ts : List (FilterToken κ)) :
    write spell (ts.map (map f)) = write (spell ∘ f) ts := by
  rw [write, write, List.map_map]
  congr 2
  funext t
  cases t with
  | connective c => cases c <;> rfl
  | _ => rfl

theorem map_between (f : κ → κ') (c : Connective) (parts : List (List (FilterToken κ))) :
    (between c parts).map (map f) = between c (parts.map (List.map (map f))) := by
  induction parts with
  | nil => rfl
  | cons part rest ih =>
    cases rest with
    | nil => rw [between, between, List.intercalate_singleton, List.map_singleton,
        List.intercalate_singleton]
    | cons part' rest =>
      rw [Filter.between_cons_cons, List.map_append, List.map_cons, ih]
      exact (Filter.between_cons_cons c _ _ _).symm

theorem mem_of_column_mem_between {c : Connective} {parts : List (List (FilterToken κ))} {k : κ}
    (h : .column k ∈ between c parts) : ∃ part ∈ parts, .column k ∈ part := by
  induction parts with
  | nil => cases h
  | cons part rest ih =>
    cases rest with
    | nil =>
      rw [between, List.intercalate_singleton] at h
      exact ⟨part, List.mem_cons_self, h⟩
    | cons part' rest =>
      rw [Filter.between_cons_cons, List.mem_append, List.mem_cons] at h
      rcases h with h | h | h
      · exact ⟨part, List.mem_cons_self, h⟩
      · cases h
      · obtain ⟨found, hfound, hk⟩ := ih h
        exact ⟨found, List.mem_cons_of_mem _ hfound, hk⟩

end FilterToken

theorem Test.tokens_map {κ κ' : Type} (f : κ → κ') (c : κ) (t : Test) :
    (t.tokens c).map (FilterToken.map f) = t.tokens (f c) := by
  cases t with
  | like negated folded p => cases folded <;> rfl
  | _ => rfl

theorem Test.eq_of_column_mem {κ : Type} {c k : κ} {t : Test} (h : .column k ∈ t.tokens c) :
    k = c := by
  cases t with
  | like negated folded p => cases folded <;> simpa [tokens, FilterToken.lowered] using h
  | _ => simpa [tokens] using h

/-- A row of tokens with places for columns. -/
abbrev Template := List (FilterToken ColumnPlace)

namespace Filter

/-- Filters that are written by templates, under the aliases of places that have one. -/
structure Written (a : Aliases) (templates : List Template) (fs : List Filter) : Prop where
  known : ∀ ts ∈ templates, ∀ c, .column c ∈ ts → a.Knows c.place
  tokens : fs.map tokens = templates.map (List.map (FilterToken.map a.refAt))

namespace Written

variable {a : Aliases} {templates templates' : List Template} {fs fs' : List Filter}

theorem nil (a : Aliases) : Written a [] [] := ⟨by simp, rfl⟩

theorem append (h : Written a templates fs) (h' : Written a templates' fs') :
    Written a (templates ++ templates') (fs ++ fs') where
  known ts hts := (List.mem_append.1 hts).elim (h.known ts) (h'.known ts)
  tokens := by rw [List.map_append, List.map_append, h.tokens, h'.tokens]

/-- A test of the column at a place that has an alias. -/
theorem test {c : ColumnPlace} (hknows : a.Knows c.place) (t : Test) :
    Written a [t.tokens c] [.test (a.refAt c) t] where
  known ts hts k hk := by
    obtain rfl := List.mem_singleton.1 hts
    rw [Test.eq_of_column_mem hk]
    exact hknows
  tokens := by
    rw [List.map_singleton, List.map_singleton, Filter.tokens, Test.tokens_map]

theorem known_between (h : Written a templates fs) {c : Connective} {k : ColumnPlace}
    (hk : .column k ∈ FilterToken.between c templates) : a.Knows k.place := by
  obtain ⟨ts, hts, hk⟩ := FilterToken.mem_of_column_mem_between hk
  exact h.known ts hts k hk

theorem chain (h : Written a templates fs) :
    Written a [FilterToken.between .and templates] [.chain fs] where
  known ts hts k hk := by
    obtain rfl := List.mem_singleton.1 hts
    exact h.known_between hk
  tokens := by
    rw [List.map_singleton, List.map_singleton, FilterToken.map_between, ← h.tokens, Filter.tokens,
      tokensOfAll_eq]

theorem group (c : Connective) (h : Written a templates fs) :
    Written a [[.openParen] ++ FilterToken.between c templates ++ [.closeParen]] [.group c fs] where
  known ts hts k hk := by
    obtain rfl := List.mem_singleton.1 hts
    apply h.known_between (c := c)
    simpa using hk
  tokens := by
    rw [List.map_singleton, List.map_singleton, List.map_append, List.map_append,
      FilterToken.map_between, ← h.tokens, Filter.tokens, tokensOfAll_eq]
    rfl

theorem negations {f : Option Filter} (h : Written a templates f.toList) :
    Written a (templates.map fun ts => [.not, .openParen] ++ ts ++ [.closeParen])
      (f.map .negation).toList where
  known ts' hts' k hk := by
    obtain ⟨ts, hts, rfl⟩ := List.mem_map.1 hts'
    refine h.known ts hts k ?_
    simpa using hk
  tokens := by
    have hcomp : Filter.tokens ∘ Filter.negation =
        (fun ts => [.not, .openParen] ++ ts ++ [.closeParen]) ∘ Filter.tokens := by
      funext f
      rw [Function.comp_apply, Filter.tokens]
      rfl
    rw [Option.toList_map, List.map_map, hcomp, ← List.map_map, h.tokens, List.map_map, List.map_map]
    refine List.map_congr_left fun ts _ => ?_
    simp [FilterToken.map]

theorem eq_nil_iff (h : Written a templates fs) : fs = [] ↔ templates = [] := by
  have hlength := congrArg List.length h.tokens
  rw [List.length_map, List.length_map] at hlength
  rw [← List.length_eq_zero_iff, hlength, List.length_eq_zero_iff]

/-- Later aliases leave the text of a template as it is. -/
theorem of_extends {t t' : JoinTree ι} (h : Written t.aliases templates fs) (hgrows : t.Extends t') :
    Written t'.aliases templates fs where
  known ts hts c hc := hgrows.knows (h.known ts hts c hc)
  tokens := by
    rw [h.tokens]
    refine List.map_congr_left fun ts hts => List.map_congr_left fun token htoken => ?_
    cases token with
    | column c =>
      have halias := hgrows.aliasAt_eq (h.known ts hts c htoken)
      rw [FilterToken.map, FilterToken.map, Aliases.refAt, Aliases.refAt, halias]
    | _ => rfl

end Written

/-- The template of parts that are put together, if there are any. -/
def templateOfParts (combine : List Template → Template) (templates : List Template) :
    List Template :=
  if templates.isEmpty then [] else [combine templates]

theorem Written.ofParts {a : Aliases} {templates : List Template} {fs : List Filter}
    {build : List Filter → Filter} {combine : List Template → Template}
    (h : Written a templates fs) (hbuild : Written a [combine templates] [build fs]) :
    Written a (templateOfParts combine templates) (ofParts build fs).toList := by
  cases templates with
  | nil =>
    obtain rfl := h.eq_nil_iff.2 rfl
    exact .nil a
  | cons ts rest =>
    cases fs with
    | nil => cases h.eq_nil_iff.1 rfl
    | cons f fs => exact hbuild

/-- A template in parentheses of its own. -/
def parenthesized (ts : Template) : Template :=
  [.openParen] ++ FilterToken.between .and [ts] ++ [.closeParen]

theorem Written.parenthesized {a : Aliases} {templates : List Template} {fs : List Filter}
    (h : Written a templates fs) :
    Written a (templates.map parenthesized) (fs.map fun f => .group .and [f]) where
  known ts' hts' k hk := by
    obtain ⟨ts, hts, rfl⟩ := List.mem_map.1 hts'
    refine h.known ts hts k ?_
    simpa [Filter.parenthesized, FilterToken.between] using hk
  tokens := by
    have hcomp : Filter.tokens ∘ (fun f => Filter.group .and [f]) =
        (fun ts => [.openParen] ++ FilterToken.between .and [ts] ++ [.closeParen]) ∘ Filter.tokens := by
      funext f
      rw [Function.comp_apply, Filter.tokens, tokensOfAll_eq]
      rfl
    rw [List.map_map, hcomp, ← List.map_map, h.tokens, List.map_map, List.map_map]
    refine List.map_congr_left fun ts _ => ?_
    simp [Filter.parenthesized, FilterToken.between, FilterToken.map]

/-- The templates of filters that must all hold, each in parentheses, one alone as it is. -/
def templateOfConjunction : List Template → List Template
  | [] => []
  | [ts] => [ts]
  | templates => [FilterToken.between .and (templates.map parenthesized)]

theorem Written.conjunction {a : Aliases} {templates : List Template} {fs : List Filter}
    (h : Written a templates fs) :
    Written a (templateOfConjunction templates) (Filter.conjunction fs).toList := by
  have hlength := congrArg List.length h.tokens
  rw [List.length_map, List.length_map] at hlength
  match fs, templates with
  | [], [] => exact .nil a
  | [f], [ts] => exact h
  | f :: f' :: fs, ts :: ts' :: templates => exact h.parenthesized.chain
  | [], _ :: _ => cases hlength
  | _ :: _, [] => cases hlength
  | [_], _ :: _ :: _ => cases hlength
  | _ :: _ :: _, [_] => cases hlength

/-- The text of a filter, written from its template. -/
theorem Written.textOf {a : Aliases} {templates : List Template} {f : Option Filter}
    (h : Written a templates f.toList) (quote : String → String) :
    Filter.textOf quote f = FilterToken.write (fun c => (a.refAt c).spell quote) templates.flatten := by
  cases f with
  | none =>
    obtain rfl := h.eq_nil_iff.1 rfl
    rfl
  | some f =>
    obtain ⟨ts, rfl, hts⟩ := List.map_eq_singleton_iff.1 h.tokens.symm
    rw [Filter.textOf, Option.map_some, Option.getD_some, Filter.text, ← hts,
      FilterToken.write_map]
    simp [Function.comp_def]

end Filter

end EntityQuery
