import PageFilters.Proofs.Markup.Undisturbed

/-!
Runs of an observer that edits, event by event. What every reaction keeps in a well-formed document
holds at the end. A run in which no reaction changed the document is that of an observer that only
reads, and builds what the text says.
-/

namespace PageFilters

variable {observer : Observer σ}

theorem Observer.EditsOnly.recorded (edits : observer.EditsOnly) :
    observer.recorded.EditsOnly := by
  constructor
  · exact fun d s => edits.startDocument d s.1
  · exact fun id d s => edits.startElement id d s.1
  · exact fun id d s => edits.endElement id d s.1
  · exact fun d s => edits.endDocument d s.1

theorem Observer.recorded_keeps (observer : Observer σ) (log : List Occasion) :
    observer.recorded.Keeps fun s => log <+: s.2 := by
  constructor
  · exact fun id d s early => early.trans (List.prefix_append ..)
  · exact fun id d s early => early.trans (List.prefix_append ..)
  · exact fun what s early => early

theorem Reaction.recorded_alongside {R : σ → τ → Prop} {first : Reaction σ} {second : Reaction τ}
    {d : Document} {s : σ} {t : τ}
    (along : Alongside R (first.on (d, s)) (second.on (d, t))) (call : Call NodeId)
    (log : List Occasion) :
    Alongside (fun x y => R x.1 y.1 ∧ x.2 = y.2) ((first.recorded call).on (d, s, log))
      ((second.recorded call).on (d, t, log)) :=
  ⟨along.1, along.2, congrArg (fun after => log ++ [⟨call, d, after⟩]) along.1⟩

theorem Observer.Matches.recorded {left : Observer σ} {right : Observer τ} {R : σ → τ → Prop}
    (same : left.Matches right R) :
    left.recorded.Matches right.recorded fun x y => R x.1 y.1 ∧ x.2 = y.2 := by
  constructor
  case startElement =>
    rintro id ⟨d, s, log⟩ ⟨_, t, _⟩ ⟨rfl, related, rfl⟩
    exact Reaction.recorded_alongside (same.startElement id (d, s) (d, t) ⟨rfl, related⟩) _ log
  case endElement =>
    rintro id ⟨d, s, log⟩ ⟨_, t, _⟩ ⟨rfl, related, rfl⟩
    exact Reaction.recorded_alongside (same.endElement id (d, s) (d, t) ⟨rfl, related⟩) _ log
  case ignored =>
    rintro what ⟨s, log⟩ ⟨t, _⟩ ⟨related, rfl⟩
    exact ⟨same.ignored what s t related, rfl⟩
  case endDocument =>
    rintro ⟨d, s, log⟩ ⟨_, t, _⟩ ⟨rfl, related, rfl⟩
    exact Reaction.recorded_alongside (same.endDocument (d, s) (d, t) ⟨rfl, related⟩) _ log

theorem Builder.after_matches_recorded {left : Observer σ} {right : Observer τ}
    {R : σ → τ → Prop} (same : left.Matches right R) {s : σ} {t : τ}
    (begun : PageFilters.Alongside R (left.startDocument .empty s) (right.startDocument .empty t))
    (text : String) (n : Nat) :
    (after left.recorded text (s, []) n).Alongside (fun x y => R x.1 y.1 ∧ x.2 = y.2)
      (after right.recorded text (t, []) n) := by
  refine after_matches same.recorded ?_ text n
  exact Reaction.recorded_alongside begun .startDocument []

theorem Observer.log_matches {left : Observer σ} {right : Observer τ} {R : σ → τ → Prop}
    (same : left.Matches right R) {s : σ} {t : τ}
    (begun : PageFilters.Alongside R (left.startDocument .empty s) (right.startDocument .empty t))
    (text : String) : left.log text s = right.log text t := by
  have start : PageFilters.Alongside (fun x y => R x.1 y.1 ∧ x.2 = y.2)
      (left.recorded.startDocument .empty (s, []))
      (right.recorded.startDocument .empty (t, [])) :=
    Reaction.recorded_alongside begun .startDocument []
  exact (parseWith_matches same.recorded start text).2.2

theorem Document.attachNew_becomes (d : Document) (p : NodeId) (data : NodeData) :
    d.Becomes (d.attachNew p data) :=
  ⟨[.create data, .append p d.size], rfl⟩

namespace Outline

theorem watch_becomes (edits : observer.EditsOnly) (o : Outline) (p : NodeId)
    (x : Document × σ) : x.1.Becomes (o.watch observer p x).1 := by
  induction o generalizing p x with
  | done => exact .refl x.1
  | ignored what rest ih => exact ih p (x.1, observer.ignored what x.2)
  | leaf data _ rest ih => exact (x.1.attachNew_becomes p data).trans (ih p _)
  | element e inside rest ihInside ihRest =>
    have attached := x.1.attachNew_becomes p (.element e)
    have started := attached.trans (edits.startElement x.1.size _ x.2)
    have filled := started.trans (ihInside x.1.size _)
    exact (filled.trans (edits.endElement x.1.size _ _)).trans (ihRest p _)

theorem watch_kept (edits : observer.EditsOnly) {P : σ → Prop}
    (started : ∀ (d : Document) p e s, d.WellFormed → d.IsContainer p → P s →
      P (observer.startElement d.size (d.attachNew p (.element e)) s).2)
    (ended : ∀ id (d : Document) s, d.WellFormed → P s → P (observer.endElement id d s).2)
    (ignored : ∀ what s, P s → P (observer.ignored what s)) (o : Outline) {p : NodeId}
    {x : Document × σ} (sound : x.1.WellFormed) (container : x.1.IsContainer p) (holds : P x.2) :
    P (o.watch observer p x).2 := by
  induction o generalizing p x with
  | done => exact holds
  | ignored what rest ih =>
    exact ih (x := (x.1, observer.ignored what x.2)) sound container (ignored what _ holds)
  | leaf data _ rest ih =>
    have grown := Document.attachNew_extends sound container data
    exact ih (x := (x.1.attachNew p data, x.2)) grown.sound (grown.isContainer container) holds
  | element e inside rest ihInside ihRest =>
    have grown := Document.attachNew_extends sound container (.element e)
    have held := Document.data_attachNew sound container (.element e)
    have first := edits.startElement x.1.size (x.1.attachNew p (.element e)) x.2
    let begun := (observer.startElement x.1.size).on (x.1.attachNew p (.element e), x.2)
    have begunSound : begun.1.WellFormed := first.wellFormed grown.sound
    have below : begun.1.IsContainer x.1.size :=
      (first.retains grown.sound).container _ (Document.isContainer_of_element held)
    let filled := inside.watch observer x.1.size begun
    have kept : P filled.2 := ihInside begunSound below (started x.1 p e x.2 sound container holds)
    have through := first.trans (watch_becomes edits inside x.1.size begun)
    have closed := ended x.1.size filled.1 filled.2 (through.wellFormed grown.sound) kept
    have whole := through.trans (edits.endElement x.1.size filled.1 filled.2)
    exact ihRest (whole.wellFormed grown.sound)
      ((whole.retains grown.sound).container _ (grown.isContainer container)) closed

end Outline

theorem parseWith_kept (edits : observer.EditsOnly) {P : σ → Prop} {s : σ}
    (begun : P (observer.startDocument .empty s).2)
    (started : ∀ (d : Document) p e s, d.WellFormed → d.IsContainer p → P s →
      P (observer.startElement d.size (d.attachNew p (.element e)) s).2)
    (ended : ∀ id (d : Document) s, d.WellFormed → P s → P (observer.endElement id d s).2)
    (ignored : ∀ what s, P s → P (observer.ignored what s))
    (finished : ∀ (d : Document) s, d.WellFormed → P s → P (observer.endDocument d s).2)
    (text : String) :
    P (parseWith observer text s).2 := by
  have sound := (edits.startDocument .empty s).wellFormed Document.empty_wellFormed
  have read := (Outline.ofText text).watch_kept edits started ended ignored
    (x := observer.startDocument .empty s) sound (Document.root_isContainer sound.toLinked) begun
  have readSound := ((Outline.ofText text).watch_becomes edits Document.root
    (observer.startDocument .empty s)).wellFormed sound
  rw [parseWith_eq]
  exact finished _ _ readSound read

def Reaction.readOnly (reaction : Reaction σ) : Reaction σ :=
  fun d state => (d, (reaction d state).2)

def Observer.readOnly (observer : Observer σ) : Observer σ where
  startDocument := observer.startDocument.readOnly
  startElement id := (observer.startElement id).readOnly
  endElement id := (observer.endElement id).readOnly
  endDocument := observer.endDocument.readOnly
  ignored := observer.ignored

theorem Observer.readOnly_matches (observer : Observer σ) :
    observer.readOnly.Matches ({} : Observer Unit) fun _ _ => True := by
  constructor
  · exact fun id x y along => ⟨along.1, trivial⟩
  · exact fun id x y along => ⟨along.1, trivial⟩
  · exact fun what s t related => trivial
  · exact fun x y along => ⟨along.1, trivial⟩

theorem Reaction.recorded_still {call : Call NodeId} {reaction : Reaction σ}
    {x : Document × σ × List Occasion}
    (still : ∀ occasion ∈ ((reaction.recorded call).on x).2.2, occasion.after = occasion.before) :
    (reaction.recorded call).on x = (reaction.readOnly.recorded call).on x := by
  obtain ⟨d, state, log⟩ := x
  have same : (reaction d state).1 = d := still ⟨call, d, (reaction d state).1⟩
    (List.mem_append_right _ (List.mem_singleton.mpr rfl))
  simp only [on, recorded, readOnly, same]

namespace Outline

theorem watch_log (o : Outline) (p : NodeId) (x : Document × σ × List Occasion) :
    x.2.2 <+: (o.watch observer.recorded p x).2.2 :=
  o.watch_keeps (observer.recorded_keeps x.2.2) p (List.prefix_refl _)

theorem watch_still (o : Outline) (p : NodeId) (x : Document × σ × List Occasion)
    (still : ∀ occasion ∈ (o.watch observer.recorded p x).2.2,
      occasion.after = occasion.before) :
    o.watch observer.recorded p x = o.watch observer.readOnly.recorded p x := by
  induction o generalizing p x with
  | done => rfl
  | ignored what rest ih => exact ih p (x.1, observer.recorded.ignored what x.2) still
  | leaf data _ rest ih => exact ih p (x.1.attachNew p data, x.2) still
  | element e inside rest ihInside ihRest =>
    let begun :=
      (observer.recorded.startElement x.1.size).on (x.1.attachNew p (.element e), x.2)
    let filled := inside.watch observer.recorded x.1.size begun
    let closed := (observer.recorded.endElement x.1.size).on filled
    have late : closed.2.2 <+: (rest.watch observer.recorded p closed).2.2 :=
      rest.watch_log p closed
    have middle : filled.2.2 <+: closed.2.2 := List.prefix_append ..
    have early : begun.2.2 <+: filled.2.2 := inside.watch_log x.1.size begun
    have first : begun = (observer.readOnly.recorded.startElement x.1.size).on
        (x.1.attachNew p (.element e), x.2) := Reaction.recorded_still
      fun occasion member => still occasion (late.subset (middle.subset (early.subset member)))
    have last : closed = (observer.readOnly.recorded.endElement x.1.size).on filled :=
      Reaction.recorded_still fun occasion member => still occasion (late.subset member)
    have inner := ihInside x.1.size begun fun occasion member =>
      still occasion (late.subset (middle.subset member))
    have outer := ihRest p closed still
    change rest.watch observer.recorded p closed = _
    rw [outer, last, show filled = _ from inner, first]
    rfl

end Outline

theorem parseWith_readOnly {text : String} {s : σ}
    (still : ∀ occasion ∈ observer.log text s, occasion.after = occasion.before) :
    parseWith observer.recorded text (s, []) =
      parseWith observer.readOnly.recorded text (s, []) := by
  let begun := observer.recorded.startDocument.on (.empty, s, [])
  let read := (Outline.ofText text).watch observer.recorded Document.root begun
  rw [Observer.log, parseWith_eq] at still
  have late : read.2.2 <+: (observer.recorded.endDocument.on read).2.2 := List.prefix_append ..
  have early : begun.2.2 <+: read.2.2 := (Outline.ofText text).watch_log Document.root begun
  have first : begun = observer.readOnly.recorded.startDocument.on (.empty, s, []) :=
    Reaction.recorded_still fun occasion member =>
      still occasion (late.subset (early.subset member))
  have last : observer.recorded.endDocument.on read =
      observer.readOnly.recorded.endDocument.on read := Reaction.recorded_still still
  have inside := (Outline.ofText text).watch_still Document.root begun fun occasion member =>
    still occasion (late.subset member)
  rw [parseWith_eq]
  change observer.recorded.endDocument.on read = _
  rw [last, show read = _ from inside, first, parseWith_eq]

theorem parseWith_still {text : String} {s : σ}
    (still : ∀ occasion ∈ observer.log text s, occasion.after = occasion.before) :
    (parseWith observer text s).1 = parse text := by
  have along := parseWith_matches observer.readOnly_matches (s := s) (t := ()) ⟨rfl, trivial⟩ text
  rw [parseWith_recorded, parseWith_readOnly still, PageFilters.parse, ← along.1,
    parseWith_recorded observer.readOnly]

end PageFilters
