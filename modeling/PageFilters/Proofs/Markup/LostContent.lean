import PageFilters.Proofs.Document.Lost
import PageFilters.Proofs.Markup.Recording

/-!
Building inside an element that an observer has deleted. The builder goes on below it as if nothing
had happened, for each open element is still a child of the one around it or has itself been
deleted. So all that is built there is lost from the start, and nobody ever sees it.
-/

namespace PageFilters

namespace Document

variable {d d' : Document} {ids : List NodeId} {p id : NodeId}

def Chained (d : Document) (ids : List NodeId) : Prop :=
  ids.IsChain fun c p => d.parent? c = some p ∨ d.isDeleted c = true

theorem Chained.later (chained : d.Chained ids) (sound : d.WellFormed) (becomes : d.Becomes d') :
    d'.Chained ids := by
  apply List.IsChain.imp _ chained
  rintro c p (parent | deleted)
  · exact becomes.parent_or_deleted sound parent
  · exact .inr (becomes.isDeleted sound deleted)

theorem Chained.isLost (chained : d.Chained (p :: ids)) (linked : d.Linked)
    (apart : root ∉ p :: ids) (member : id ∈ p :: ids) (deleted : d.isDeleted id = true) :
    d.IsLost p := by
  induction ids generalizing p with
  | nil =>
    rw [List.mem_singleton.mp member] at deleted
    exact ⟨p, fun same => apart (by simp [same]), deleted, .refl⟩
  | cons q outer ih =>
    have here : d.isDeleted p = true → d.IsLost p := fun deleted =>
      ⟨p, fun same => apart (by simp [same]), deleted, .refl⟩
    rcases List.mem_cons.mp member with rfl | above
    · exact here deleted
    · obtain ⟨link, rest⟩ := List.isChain_cons_cons.mp chained
      rcases link with parent | deletedHere
      · have lost := ih rest (fun among => apart (List.mem_cons_of_mem p among)) above
        exact lost.child linked parent
      · exact here deletedHere

end Document

open Document (root)

variable {observer : Observer σ} {ids : List NodeId} {d : Document} {log : List Occasion}

def nextDocument (d : Document) (later : List Occasion) : Document :=
  (later.head?.map Occasion.before).getD d

structure Tracked (ids : List NodeId) (d : Document) (log : List Occasion) : Prop where
  sound : d.WellFormed
  containers : ∀ p ∈ root :: ids, d.IsContainer p
  opened : openAfter (log.map Occasion.call) = ids
  apart : root ∉ ids
  chained : d.Chained ids
  steps : ∀ o ∈ log, o.before.WellFormed ∧ o.before.Becomes o.after
  ordered : log.Pairwise fun o o' => o.after.Becomes o'.before
  past : ∀ o ∈ log, o.after.Becomes d
  /-- What is built after a call inside an element that was deleted by then is lost. -/
  lost : ∀ before o later, log = before ++ o :: later →
    ∀ id ∈ openAfter ((before ++ [o]).map Occasion.call), o.after.isDeleted id = true →
      ∀ n, o.after.size ≤ n → n < (nextDocument d later).size → (nextDocument d later).IsLost n

namespace Tracked

theorem head_container (tracked : Tracked ids d log) : d.IsContainer (ids.headD root) := by
  apply tracked.containers
  cases ids with
  | nil => exact List.mem_cons_self ..
  | cons id outer => simp

theorem attach (tracked : Tracked ids d log) (data : NodeData) :
    Tracked ids (d.attachNew (ids.headD root) data) log := by
  have container := tracked.head_container
  have grown := Document.attachNew_extends tracked.sound container data
  have becomes := d.attachNew_becomes (ids.headD root) data
  constructor
  case sound => exact grown.sound
  case containers => exact fun p member => grown.isContainer (tracked.containers p member)
  case opened => exact tracked.opened
  case apart => exact tracked.apart
  case chained => exact tracked.chained.later tracked.sound becomes
  case steps => exact tracked.steps
  case ordered => exact tracked.ordered
  case past => exact fun o member => (tracked.past o member).trans becomes
  case lost =>
    intro before o later split id opened deleted n new small
    cases later with
    | cons o' later => exact tracked.lost before o (o' :: later) split id opened deleted n new small
    | nil =>
      have old := tracked.lost before o [] split id opened deleted n new
      by_cases there : n < d.size
      · exact becomes.isLost tracked.sound (old there)
      · have small : n < d.size + 1 := by
          rw [← Document.size_attachNew tracked.sound container data]
          exact small
        obtain rfl : n = d.size := by omega
        have last : o ∈ log := by simp [split]
        have deletedNow :=
          (tracked.past o last).isDeleted ((tracked.steps o last).2.wellFormed
            (tracked.steps o last).1) deleted
        rw [← split, tracked.opened] at opened
        have attaches := (Document.attachNew_attaches tracked.sound container data).2
        cases ids with
        | nil => cases opened
        | cons p outer =>
          have lost := tracked.chained.isLost tracked.sound.toLinked tracked.apart opened deletedNow
          refine (becomes.isLost tracked.sound lost).child grown.sound.toLinked ?_
          rw [attaches.parent, if_pos rfl]
          rfl

theorem call (tracked : Tracked ids d log) {after : Document} (becomes : d.Becomes after)
    {call : Call NodeId} {ids' : List NodeId} (update : call.update ids = ids')
    (containers : ∀ p ∈ root :: ids', d.IsContainer p) (apart : root ∉ ids')
    (chained : d.Chained ids') : Tracked ids' after (log ++ [⟨call, d, after⟩]) := by
  have retains := becomes.retains tracked.sound
  constructor
  case sound => exact becomes.wellFormed tracked.sound
  case containers => exact fun p member => retains.container p (containers p member)
  case opened =>
    rw [List.map_append, openAfter_append, tracked.opened]
    exact update
  case apart => exact apart
  case chained => exact chained.later tracked.sound becomes
  case steps =>
    intro o member
    rcases List.mem_append.mp member with old | new
    · exact tracked.steps o old
    · rw [List.mem_singleton.mp new]
      exact ⟨tracked.sound, becomes⟩
  case ordered =>
    refine List.pairwise_append.mpr ⟨tracked.ordered, List.pairwise_singleton .., ?_⟩
    intro o old o' new
    rw [List.mem_singleton.mp new]
    exact tracked.past o old
  case past =>
    intro o member
    rcases List.mem_append.mp member with old | new
    · exact (tracked.past o old).trans becomes
    · rw [List.mem_singleton.mp new]
      exact .refl after
  case lost =>
    intro before o later split id opened deleted n new small
    rcases List.eq_nil_or_concat later with rfl | ⟨later, last, rfl⟩
    · obtain ⟨_, same⟩ := List.append_inj' split rfl
      cases same
      exact absurd small (Nat.not_lt.mpr new)
    · rw [List.concat_eq_append, ← List.cons_append, ← List.append_assoc] at split
      obtain ⟨same, final⟩ := List.append_inj' split rfl
      cases final
      have next : nextDocument after (later.concat ⟨call, d, after⟩) = nextDocument d later := by
        cases later <;> rfl
      rw [next] at small ⊢
      exact tracked.lost before o later same id opened deleted n new small

theorem start (becomes : Document.empty.Becomes d) :
    Tracked [] d [⟨.startDocument, .empty, d⟩] := by
  have sound := Document.empty_wellFormed
  have begun : Tracked [] .empty [] := by
    refine ⟨sound, ?_, rfl, List.not_mem_nil, .nil, by simp, .nil, by simp, by simp⟩
    intro p member
    rw [List.mem_singleton.mp member]
    exact Document.root_isContainer sound.toLinked
  exact begun.call becomes rfl begun.containers begun.apart begun.chained

theorem startElement (tracked : Tracked ids d log) (e : Element) {after : Document}
    (becomes : (d.attachNew (ids.headD root) (.element e)).Becomes after) :
    Tracked (d.size :: ids) after
      (log ++ [⟨.startElement d.size, d.attachNew (ids.headD root) (.element e), after⟩]) := by
  have container := tracked.head_container
  have placed := tracked.attach (.element e)
  refine placed.call becomes rfl ?_ ?_ ?_
  · intro p member
    rcases List.mem_cons.mp member with rfl | member
    · exact placed.containers root (List.mem_cons_self ..)
    · rcases List.mem_cons.mp member with rfl | member
      · exact Document.isContainer_of_element
          (Document.data_attachNew tracked.sound container (.element e))
      · exact placed.containers p (List.mem_cons_of_mem root member)
  · intro member
    rcases List.mem_cons.mp member with same | member
    · exact absurd tracked.sound.size_pos (by rw [← same]; exact Nat.lt_irrefl 0)
    · exact tracked.apart member
  · cases ids with
    | nil => exact .singleton _
    | cons p outer =>
      have attaches := (Document.attachNew_attaches tracked.sound container (.element e)).2
      refine List.isChain_cons_cons.mpr ⟨.inl ?_, placed.chained⟩
      rw [attaches.parent, if_pos rfl]
      rfl

theorem endElement {id : NodeId} (tracked : Tracked (id :: ids) d log) {after : Document}
    (becomes : d.Becomes after) : Tracked ids after (log ++ [⟨.endElement id, d, after⟩]) := by
  refine tracked.call becomes (List.erase_cons_head ..) ?_ ?_ tracked.chained.tail
  · intro p member
    apply tracked.containers
    rcases List.mem_cons.mp member with rfl | member
    · exact List.mem_cons_self ..
    · exact List.mem_cons_of_mem _ (List.mem_cons_of_mem _ member)
  · exact fun member => tracked.apart (List.mem_cons_of_mem _ member)

end Tracked

theorem Outline.watch_tracked (edits : observer.EditsOnly) (o : Outline)
    {x : Document × σ × List Occasion} (tracked : Tracked ids x.1 x.2.2) :
    Tracked ids (o.watch observer.recorded (ids.headD root) x).1
      (o.watch observer.recorded (ids.headD root) x).2.2 := by
  induction o generalizing ids x with
  | done => exact tracked
  | ignored what rest ih => exact ih (x := (x.1, observer.recorded.ignored what x.2)) tracked
  | leaf data _ rest ih =>
    exact ih (x := (x.1.attachNew (ids.headD root) data, x.2)) (tracked.attach data)
  | element e inside rest ihInside ihRest =>
    let started := (observer.recorded.startElement x.1.size).on
      (x.1.attachNew (ids.headD root) (.element e), x.2)
    let filled := inside.watch observer.recorded x.1.size started
    let ended := (observer.recorded.endElement x.1.size).on filled
    have begun : Tracked (x.1.size :: ids) started.1 started.2.2 :=
      tracked.startElement e (edits.startElement x.1.size _ x.2.1)
    have within : Tracked (x.1.size :: ids) filled.1 filled.2.2 := ihInside begun
    have closed : Tracked ids ended.1 ended.2.2 :=
      within.endElement (edits.endElement x.1.size filled.1 filled.2.1)
    exact ihRest closed

theorem parseWith_tracked (edits : observer.EditsOnly) (text : String) (state : σ) :
    Tracked [] (parseWith observer text state).1 (observer.log text state) := by
  rw [parseWith_recorded, Observer.log, parseWith_eq]
  have begun := Tracked.start (edits.startDocument .empty state)
  have read := (Outline.ofText text).watch_tracked edits
    (x := observer.recorded.startDocument .empty (state, [])) begun
  exact read.call (edits.endDocument _ _) rfl read.containers read.apart read.chained

/-- Whether `d` is a document that an observer has before it in the course of a text, or one that
the finished document becomes. -/
def Observer.Passes (observer : Observer σ) (text : String) (state : σ) (d : Document) : Prop :=
  (∃ o ∈ observer.log text state, o.before.Becomes d ∧ d.Becomes o.after) ∨
    (parseWith observer text state).1.Becomes d

/-- Whether the builder makes the node `n` when the element `id` is still open but has been
deleted. -/
def Observer.MakesInside (observer : Observer σ) (text : String) (state : σ) (id n : NodeId) :
    Prop :=
  ∃ before o o' later, observer.log text state = before ++ o :: o' :: later ∧
    id ∈ openAfter ((before ++ [o]).map Occasion.call) ∧ o.after.isDeleted id = true ∧
    o.after.size ≤ n ∧ n < o'.before.size

theorem hides_lost_content (edits : observer.EditsOnly) {text : String} {state : σ}
    {id n : NodeId} (makes : observer.MakesInside text state id n)
    (passes : observer.Passes text state d) : d.Hides n := by
  obtain ⟨before, o, o', later, split, opened, deleted, new, small⟩ := makes
  have tracked := parseWith_tracked edits text state
  have made : ∀ e ∈ [o, o'], e ∈ observer.log text state := by
    intro e member
    rw [split]
    exact List.mem_append_right before (List.mem_append_left later member)
  have lost := tracked.lost before o (o' :: later) split id opened deleted n new small
  have afterwards : o'.before.Becomes d → d.Hides n := by
    intro becomes
    have sound := (tracked.steps o' (made o' (by simp))).1
    exact (becomes.wellFormed sound).hides
      ((becomes.isLost sound lost).unattached (becomes.wellFormed sound))
  rcases passes with ⟨e, member, first, last⟩ | becomes
  · have sound := first.wellFormed (tracked.steps e member).1
    have beforehand : e.after.Becomes o.after → d.Hides n := by
      intro early
      have size := ((last.trans early).retains sound).size
      exact sound.hides (Document.isAttached_eq_false_of_size_le (Nat.le_trans size new))
    have ordered := tracked.ordered
    rw [split] at member ordered
    obtain ⟨_, ordered, apart⟩ := List.pairwise_append.mp ordered
    obtain ⟨_, ordered⟩ := List.pairwise_cons.mp ordered
    have step := (tracked.steps o (made o (by simp))).2
    have step' := (tracked.steps o' (made o' (by simp))).2
    rcases List.mem_append.mp member with early | member
    · exact beforehand ((apart e early o (List.mem_cons_self ..)).trans step)
    · rcases List.mem_cons.mp member with rfl | member
      · exact beforehand (.refl _)
      · rcases List.mem_cons.mp member with rfl | late
        · exact afterwards first
        · have between := (List.pairwise_cons.mp ordered).1 e late
          exact afterwards (step'.trans (between.trans first))
  · have step' := (tracked.steps o' (made o' (by simp))).2
    exact afterwards (step'.trans ((tracked.past o' (made o' (by simp))).trans becomes))

/-- A node that leaves the tree never returns to it, whatever edits follow. So all that the builder
makes inside an element that an observer has deleted can never be seen. -/
theorem gone_for_good (edits : observer.EditsOnly) (text : String) (state : σ) :
    (∀ (d d' d'' : Document) (id : NodeId), d.Reachable → d.Becomes d' → d'.Becomes d'' →
      d.isAttached id = true → d'.isAttached id = false → d''.isAttached id = false) ∧
    ∀ id n, observer.MakesInside text state id n →
      ∀ d, observer.Passes text state d → d.Hides n := by
  constructor
  · intro d d' d'' id reachable first last attached unattached
    have sound := reachable.wellFormed Document.empty_wellFormed
    have sound' := first.wellFormed sound
    rcases first.attached_or_lost sound attached with still | lost
    · rw [unattached] at still
      cases still
    · exact (last.isLost sound' lost).unattached (last.wellFormed sound')
  · intro id n makes d passes
    exact hides_lost_content edits makes passes

def remover : Observer Unit where
  startElement id := fun d s => (d.edit (.delete id), s)

theorem remover_editsOnly : remover.EditsOnly := by
  constructor
  · exact fun d _ => .refl d
  · exact fun id d _ => ⟨[.delete id], rfl⟩
  · exact fun _ d _ => .refl d
  · exact fun d _ => .refl d

theorem remover_hides_text :
    let placed : Document := ⟨#[{ data := .document, children := [1], attached := true },
      { data := .element ⟨"p", []⟩, parent := some 0, attached := true }]⟩
    let removed : Document := ⟨#[{ data := .document, attached := true },
      { data := .element ⟨"p", []⟩, deleted := true }]⟩
    remover.EditsOnly ∧ placed.edit (.delete 1) = removed ∧
      (removed.edit (.append 0 1)).isAttached 1 = false ∧
      remover.MakesInside "<p>a</p>" () 1 2 ∧
      ∀ d, remover.Passes "<p>a</p>" () d → d.Hides 2 := by
  intro placed removed
  have reachable : placed.Reachable := ⟨[.create (.element ⟨"p", []⟩), .append 0 1], by cbv⟩
  have gone : placed.edit (.delete 1) = removed := by cbv
  have makes : remover.MakesInside "<p>a</p>" () 1 2 := by
    let filled : Document := ⟨#[{ data := .document, attached := true },
      { data := .element ⟨"p", []⟩, children := [2], deleted := true },
      { data := .text "a", parent := some 1 }]⟩
    have log : remover.log "<p>a</p>" () =
        [⟨.startDocument, .empty, .empty⟩] ++ ⟨.startElement 1, placed, removed⟩ ::
          ⟨.endElement 1, filled, filled⟩ :: [⟨.endDocument, filled, filled⟩] := by
      rw [Observer.log, parseWith_eq]
      cbv
    exact ⟨_, _, _, _, log, by decide, rfl, Nat.le_refl 2, Nat.lt_succ_self 2⟩
  obtain ⟨stays, hides⟩ := gone_for_good remover_editsOnly "<p>a</p>" ()
  refine ⟨remover_editsOnly, gone, ?_, makes, hides 1 2 makes⟩
  exact stays placed removed _ 1 reachable ⟨[.delete 1], gone.symm⟩ ⟨[.append 0 1], rfl⟩ rfl rfl

end PageFilters
