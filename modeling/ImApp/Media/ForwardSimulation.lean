import ImApp.Media.ForwardContent
import ImApp.Media.ContentTree

/-!
Two validations that go along with each other. When two values are related so
that each step into one of them has its step into the other, the second is valid
whenever the first is, and relies on the related URLs.
-/

namespace ImApp.Media

open List Option
open JsonText (Text Json decode)
open UnicodeText (trimSpace equalFold utf8Length)

/-- `right` holds whenever `left` does, with related results. -/
def Meets {α β : Type} (G : α → β → Prop) (left : Option (List α)) (right : Option (List β)) :
    Prop :=
  ∀ found, left = some found → ∃ found', right = some found' ∧ List.Forall₂ G found found'

theorem Meets.none {α β : Type} {G : α → β → Prop} {right : Option (List β)} :
    Meets G none right := by
  intro found h
  cases h

theorem Meets.nil {α β : Type} {G : α → β → Prop} : Meets G (some []) (some []) := by
  intro found h
  cases h
  exact ⟨[], rfl, .nil⟩

theorem Meets.joined {σ τ : Type} {G : σ × Text → τ × Text → Prop}
    {left right : Option (List (σ × Text))} {left' right' : Option (List (τ × Text))}
    (h : Meets G left left') (h' : Meets G right right') :
    Meets G (joined left right) (joined left' right') := by
  intro found hfound
  obtain ⟨first, rfl, hfound⟩ := bind_eq_some_iff.mp hfound
  obtain ⟨second, rfl, rfl⟩ := map_eq_some_iff.mp hfound
  obtain ⟨first', rfl, hfirst⟩ := h first rfl
  obtain ⟨second', rfl, hsecond⟩ := h' second rfl
  exact ⟨first' ++ second', rfl, rel_append hfirst hsecond⟩

theorem Meets.collect {α β γ δ : Type} {G : γ → δ → Prop} {S : α → β → Prop} {items : List α}
    {items' : List β} {read : α → Option (List γ)} {read' : β → Option (List δ)}
    (h : List.Forall₂ S items items') (hread : ∀ a b, S a b → Meets G (read a) (read' b)) :
    Meets G (collect read items) (Media.collect read' items') := by
  induction h with
  | nil => exact Meets.nil
  | cons hhead _ ih =>
    intro found hfound
    obtain ⟨first, hfirst, hfound⟩ := bind_eq_some_iff.mp hfound
    obtain ⟨more, hmore, rfl⟩ := map_eq_some_iff.mp hfound
    obtain ⟨first', hfirst', hG⟩ := hread _ _ hhead first hfirst
    obtain ⟨more', hmore', hG'⟩ := ih more hmore
    refine ⟨first' ++ more', ?_, rel_append hG hG'⟩
    rw [Media.collect, hfirst', hmore']
    rfl

/-- Each step into the left value has its step into the right one. -/
structure Simulation {σ τ : Type} (t : Tracker σ) (t' : Tracker τ)
    (R : σ → Json → τ → Json → Prop) (G : σ × Text → τ × Text → Prop) : Prop where
  decoded : ∀ {p p' raw w value}, R p (.string raw) p' w → decode raw = some value →
    ∃ raw' value', w = .string raw' ∧ decode raw' = some value' ∧
      R (t.decoded p raw) value (t'.decoded p' raw') value'
  object : ∀ {p p' fields w}, R p (.object fields) p' w → ∃ fields', w = .object fields' ∧
    List.Forall₂ (fun field field' => field.1 = field'.1 ∧
      R (t.member p fields field.1) field.2 (t'.member p' fields' field.1) field'.2) fields fields'
  array : ∀ {p p' items w}, R p (.array items) p' w → ∃ items', w = .array items' ∧
    List.Forall₂ (fun item item' => R p item p' item') items items'
  kind : ∀ {p p' value w kind}, R p value p' w → kindOf value = some kind → kindOf w = some kind
  null : ∀ {p p' value w}, R p value p' w → isNull w = isNull value
  remote : ∀ {p p' value w}, R p value p' w → Option.Rel G (remoteItem (p, value)) (remoteItem (p', w))

namespace Simulation

variable {σ τ : Type} {t : Tracker σ} {t' : Tracker τ} {R : σ → Json → τ → Json → Prop}
  {G : σ × Text → τ × Text → Prop} (sim : Simulation t t' R G)

include sim

variable {p' : τ} {p : σ}

theorem forwardDecoded {rounds : Nat} {p q : σ} {value x w : Json} (h : R p value p' w)
    (hdecoded : forwardDecoded t rounds p value = (q, x))
    (hx : (∃ fields, x = .object fields) ∨ ∃ items, x = .array items) :
    ∃ q' y, Media.forwardDecoded t' rounds p' w = (q', y) ∧ R q x q' y := by
  induction rounds generalizing p p' value w with
  | zero =>
    rw [Media.forwardDecoded] at hdecoded
    · cases hdecoded
      exact ⟨p', w, by rw [Media.forwardDecoded]; simp, h⟩
    simp
  | succ rounds ih =>
    cases value with
    | string raw =>
      rw [Media.forwardDecoded] at hdecoded
      cases hraw : decode raw with
      | none =>
        rw [hraw] at hdecoded
        cases hdecoded
        rcases hx with ⟨fields, hx⟩ | ⟨items, hx⟩ <;> cases hx
      | some value =>
        rw [hraw] at hdecoded
        obtain ⟨raw', value', rfl, hraw', hR⟩ := sim.decoded h hraw
        rw [Media.forwardDecoded, hraw']
        exact ih hR hdecoded
    | array items =>
      obtain ⟨items', rfl, -⟩ := sim.array h
      cases hdecoded
      exact ⟨p', _, rfl, h⟩
    | object fields =>
      obtain ⟨fields', rfl, -⟩ := sim.object h
      cases hdecoded
      exact ⟨p', _, rfl, h⟩
    | null | bool value | number literal =>
      cases hdecoded
      rcases hx with ⟨fields, hx⟩ | ⟨items, hx⟩ <;> cases hx

/-- The members of two objects go along with each other. -/
def Members (R : σ → Json → τ → Json → Prop) (t : Tracker σ) (t' : Tracker τ) (p : σ) (p' : τ)
    (fields fields' : List (Text × Json)) : Prop :=
  List.Forall₂ (fun field field' => field.1 = field'.1 ∧
    R (t.member p fields field.1) field.2 (t'.member p' fields' field.1) field'.2) fields fields'

variable {fields fields' : List (Text × Json)}

omit sim in
theorem forwardFields (h : Members R t t' p p' fields fields') (name : Text) :
    List.Forall₂ (fun field field' => R field.1 field.2 field'.1 field'.2)
      (forwardFields t p fields name) (Media.forwardFields t' p' fields' name) := by
  have hall : ∀ rest rest' : List (Text × Json),
      List.Forall₂ (fun field field' => field.1 = field'.1 ∧
        R (t.member p fields field.1) field.2 (t'.member p' fields' field.1) field'.2) rest rest' →
      List.Forall₂ (fun field field' => R field.1 field.2 field'.1 field'.2)
        ((rest.filter (fun field => equalFold field.1 name)).map
          (fun field => (t.member p fields field.1, field.2)))
        ((rest'.filter (fun field => equalFold field.1 name)).map
          (fun field => (t'.member p' fields' field.1, field.2))) := by
    intro rest rest' hrest
    induction hrest with
    | nil => exact .nil
    | cons hhead _ ih =>
      obtain ⟨hkey, hR⟩ := hhead
      rw [filter_cons, filter_cons, ← hkey]
      split
      · rw [map_cons, map_cons, ← hkey]
        exact .cons hR ih
      exact ih
  exact hall fields fields' h

theorem remoteItems {items : List (σ × Json)} {items' : List (τ × Json)}
    (h : List.Forall₂ (fun item item' => R item.1 item.2 item'.1 item'.2) items items') :
    List.Forall₂ G (items.filterMap remoteItem) (items'.filterMap remoteItem) := by
  induction h with
  | nil => exact .nil
  | @cons item item' _ _ hhead _ ih =>
    have hrel : Option.Rel G (remoteItem item) (remoteItem item') := sim.remote hhead
    rw [filterMap_cons, filterMap_cons]
    generalize remoteItem item = url at hrel ⊢
    generalize remoteItem item' = url' at hrel ⊢
    cases hrel with
    | none => exact ih
    | some hG => exact .cons hG ih

theorem forwardRemote (h : Members R t t' p p' fields fields') (names : List Text) :
    Meets G (forwardRemote t p fields names) (Media.forwardRemote t' p' fields' names) := by
  induction names with
  | nil => exact Meets.none
  | cons name names ih =>
    have hitems := sim.remoteItems (forwardFields h name)
    rw [Media.forwardRemote, Media.forwardRemote]
    generalize (Media.forwardFields t p fields name).filterMap remoteItem = found at hitems
    generalize (Media.forwardFields t' p' fields' name).filterMap remoteItem = found' at hitems
    cases hitems with
    | nil => exact ih
    | cons hG hrest =>
      intro result hres
      cases hres
      exact ⟨_, rfl, .cons hG hrest⟩

theorem forwardPicture {picture : σ × Json} {picture' : τ × Json}
    (h : R picture.1 picture.2 picture'.1 picture'.2) :
    Meets G (forwardPicture t picture) (Media.forwardPicture t' picture') := by
  rw [Media.forwardPicture]
  split
  case h_1 q fields hdecoded =>
    obtain ⟨q', y, hy, hR⟩ := sim.forwardDecoded h hdecoded (.inl ⟨fields, rfl⟩)
    obtain ⟨fields', rfl, hfields⟩ := sim.object hR
    rw [Media.forwardPicture, hy]
    exact sim.forwardRemote hfields _
  · exact Meets.none

theorem forwardThumbnails (h : Members R t t' p p' fields fields') (name : Text) :
    Meets G (forwardThumbnails t p fields name) (Media.forwardThumbnails t' p' fields' name) := by
  intro found hfound
  obtain ⟨all, hall, rfl⟩ := map_eq_some_iff.mp hfound
  have hpictures : Meets G (collect (Media.forwardPicture t) (Media.forwardFields t p fields name))
      (collect (Media.forwardPicture t') (Media.forwardFields t' p' fields' name)) :=
    Meets.collect (forwardFields h name) (fun _ _ hR => sim.forwardPicture hR)
  obtain ⟨all', hall', -⟩ := hpictures all hall
  exact ⟨[], by rw [Media.forwardThumbnails, hall']; rfl, .nil⟩

theorem validatePicture (h : Members R t t' p p' fields fields') :
    Meets G (validatePicture t p fields) (Media.validatePicture t' p' fields') := by
  apply Meets.joined
  · have hpictures := forwardFields h "sourcePicture".toList
    generalize Media.forwardFields t p fields "sourcePicture".toList = pictures at hpictures
    generalize Media.forwardFields t' p' fields' "sourcePicture".toList = pictures' at hpictures
    cases hpictures with
    | nil => exact sim.forwardRemote h _
    | cons hhead htail =>
      exact Meets.collect (.cons hhead htail) (fun _ _ hR => sim.forwardPicture hR)
  exact (sim.forwardThumbnails h _).joined (sim.forwardThumbnails h _)

theorem messageKind {items : List (σ × Json)} {items' : List (τ × Json)} {kind : Nat}
    (h : List.Forall₂ (fun item item' => R item.1 item.2 item'.1 item'.2) items items')
    (hkind : messageKind items = some kind) : Media.messageKind items' = some kind := by
  cases h with
  | nil => cases hkind
  | cons hhead htail =>
    obtain ⟨kind', hfirst, hrest⟩ := bind_eq_some_iff.mp hkind
    split at hrest
    case isTrue hall =>
      cases hrest
      rw [Media.messageKind, sim.kind hhead hfirst, bind_some, if_pos]
      rw [List.all_eq_true] at hall ⊢
      intro item' hitem'
      obtain ⟨item, hitem, hR⟩ := mem_right htail hitem'
      have hitemKind := hall item hitem
      rw [decide_eq_true_eq] at hitemKind ⊢
      exact sim.kind hR hitemKind
    · cases hrest

section

variable {validate : Nat → σ → Json → Option (List (σ × Text))}
  {validate' : Nat → τ → Json → Option (List (τ × Text))}
  (hvalidate : ∀ kind p value p' w, R p value p' w →
    Meets G (validate kind p value) (validate' kind p' w))

include hvalidate

theorem validateForwardMessage {message : σ × Json} {message' : τ × Json}
    (h : R message.1 message.2 message'.1 message'.2) :
    Meets G (validateForwardMessage t validate message)
      (Media.validateForwardMessage t' validate' message') := by
  rw [Media.validateForwardMessage]
  split
  case h_1 q fields hdecoded =>
    obtain ⟨q', y, hy, hR⟩ := sim.forwardDecoded h hdecoded (.inl ⟨fields, rfl⟩)
    obtain ⟨fields', rfl, hfields⟩ := sim.object hR
    intro found hfound
    obtain ⟨kind, hkind, hfound⟩ := bind_eq_some_iff.mp hfound
    have hkind' := sim.messageKind (forwardFields hfields _) hkind
    obtain ⟨found', hfound', hG⟩ := hvalidate kind q _ q' _ hR found hfound
    refine ⟨found', ?_, hG⟩
    rw [Media.validateForwardMessage, hy]
    simp only [hkind', bind_some, hfound']
  · exact Meets.none

variable {fields fields' : List (Text × Json)}

section

variable (h : Members R t t' p p' fields fields')
include h

theorem validateQuotes {kind : Nat} : Meets G (validateQuotes t validate kind p fields)
      (Media.validateQuotes t' validate' kind p' fields') := by
  have hquotes := forwardFields h "quoteMessage".toList
  rw [Media.validateQuotes, Media.validateQuotes]
  generalize Media.forwardFields t p fields "quoteMessage".toList = quotes at hquotes
  generalize Media.forwardFields t' p' fields' "quoteMessage".toList = quotes' at hquotes
  cases hquotes with
  | nil =>
    simp only
    split
    · exact Meets.none
    exact Meets.nil
  | cons hhead htail =>
    refine Meets.collect (.cons hhead htail) ?_
    intro quote quote' hR
    rw [sim.null hR]
    split
    · exact Meets.nil
    exact sim.validateForwardMessage hvalidate hR

theorem validateMerge :
    Meets G (validateMerge t validate p fields) (Media.validateMerge t' validate' p' fields') := by
  have hlists := forwardFields h "multiMessage".toList
  rw [Media.validateMerge, Media.validateMerge]
  generalize Media.forwardFields t p fields "multiMessage".toList = lists at hlists
  generalize Media.forwardFields t' p' fields' "multiMessage".toList = lists' at hlists
  cases hlists with
  | nil => exact Meets.none
  | cons hhead htail =>
    refine Meets.collect (.cons hhead htail) ?_
    intro list list' hR
    split
    case h_1 q messages hdecoded =>
      obtain ⟨q', y, hy, hR'⟩ := sim.forwardDecoded hR hdecoded (.inr ⟨messages, rfl⟩)
      obtain ⟨messages', rfl, hmessages⟩ := sim.array hR'
      rw [hy]
      cases hmessages with
      | nil => exact Meets.none
      | cons hfirst hrest =>
        refine Meets.collect (.cons hfirst hrest) ?_
        intro message message' hR''
        exact sim.validateForwardMessage hvalidate hR''
    · exact Meets.none

theorem validateElement {kind : Nat} : Meets G (validateElement t validate kind p fields)
      (Media.validateElement t' validate' kind p' fields') := by
  rw [Media.validateElement, Media.validateElement]
  split
  · exact sim.validatePicture h
  split
  · exact sim.forwardRemote h _
  split
  · exact (sim.forwardRemote h _).joined (sim.forwardRemote h _)
  split
  · exact sim.forwardRemote h _
  split
  · exact sim.validateMerge hvalidate h
  exact sim.validateQuotes hvalidate h

end

end

theorem validateForwardValue (levels : Nat) : ∀ kind p value p' w, R p value p' w →
      Meets G (validateForwardValue t levels kind p value)
        (Media.validateForwardValue t' levels kind p' w) := by
  induction levels with
  | zero =>
    intro kind p value p' w _
    exact Meets.none
  | succ levels ih =>
    intro kind p value p' w h
    rw [Media.validateForwardValue, Media.validateForwardValue]
    cases forwardElement kind with
    | none => exact Meets.nil
    | some name =>
      simp only
      split
      case h_1 q fields hdecoded =>
        obtain ⟨q', y, hy, hR⟩ := sim.forwardDecoded h hdecoded (.inl ⟨fields, rfl⟩)
        obtain ⟨fields', rfl, hfields⟩ := sim.object hR
        rw [hy]
        have hpayloads : List.Forall₂ (fun field field' => R field.1 field.2 field'.1 field'.2)
            (Media.forwardFields t q fields name ++ Media.forwardFields t q fields "content".toList)
            (Media.forwardFields t' q' fields' name ++
              Media.forwardFields t' q' fields' "content".toList) :=
          rel_append (forwardFields hfields name) (forwardFields hfields _)
        simp only
        generalize Media.forwardFields t q fields name ++
          Media.forwardFields t q fields "content".toList = payloads at hpayloads
        generalize Media.forwardFields t' q' fields' name ++
          Media.forwardFields t' q' fields' "content".toList = payloads' at hpayloads
        cases hpayloads with
        | nil => exact sim.validateElement ih hfields
        | cons hhead htail =>
          exact Meets.collect (.cons hhead htail) (fun _ _ hR => ih _ _ _ _ _ hR)
      · exact Meets.none

end Simulation

end ImApp.Media
