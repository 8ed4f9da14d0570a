import PageFilters.Proofs.Filter.MainImage

/-!
The main image found in one pass. The pass goes through the elements in document order, knows of
each what is around it and what came before, and exchanges the first one that may be promoted; it
comes to the same as looking at all elements first.
-/

namespace PageFilters

/-- Trees after the first element that may be promoted was; `none` if there is no such element. -/
def promoteFirst? [UrlLibrary] (url : Url) (around : List Element) (before : List Event) :
    List (Tree NodeData) → Option (List (Tree NodeData))
  | [] => none
  | .node (.element e) inside :: rest =>
    let x : Site := ⟨[], 0, around, before, e, inside⟩
    match x.source? url with
    | some src => some (x.promoted src ++ rest)
    | none =>
      match promoteFirst? url (e :: around) (before ++ [.start e]) inside with
      | some changed => some (.node (.element e) changed :: rest)
      | none =>
        (promoteFirst? url around (before ++ .start e :: (events inside ++ [.stop e])) rest).map
          (.node (.element e) inside :: ·)
  | t :: rest => (promoteFirst? url around before rest).map (t :: ·)

section

variable {data : NodeData} (other : ∀ e, data ≠ .element e) (inside rest : List (Tree NodeData))

include other

theorem events_other : events (.node data inside :: rest) = events rest := by
  rw [events]
  intro e inside same
  cases same
  exact other e rfl

theorem sites_other (around : List Element) (before : List Event) (i : Nat) :
    sites around before i (.node data inside :: rest) = sites around before (i + 1) rest := by
  rw [sites]
  intro e inside same
  cases same
  exact other e rfl

theorem promoteFirst_other [UrlLibrary] (url : Url) (around : List Element) (before : List Event) :
    promoteFirst? url around before (.node data inside :: rest) =
      (promoteFirst? url around before rest).map (.node data inside :: ·) := by
  rw [promoteFirst?]
  intro e inside same
  cases same
  exact other e rfl

end

theorem replaceAt_here (new front : List (Tree α)) (t : Tree α) (rest : List (Tree α)) :
    replaceAt new front.length [] (front ++ t :: rest) = front ++ (new ++ rest) := by
  simp [replaceAt]

theorem replaceAt_below (new : List (Tree α)) (index : Nat) (path : List Nat)
    (front : List (Tree α)) (label : α) (inside rest : List (Tree α)) :
    replaceAt new index (front.length :: path) (front ++ .node label inside :: rest) =
      front ++ .node label (replaceAt new index path inside) :: rest := by
  simp [replaceAt, Tree.label, Tree.children, List.modify_eq_take_cons_drop]

variable [UrlLibrary]

theorem source_below (url : Url) (i : Nat) (x : Site) : (x.below i).source? url = x.source? url :=
  rfl

theorem choice_below (url : Url) (i : Nat) (x : Site) :
    (x.below i).choice? url =
      (x.choice? url).map fun found => (found.1.below i, found.2) := by
  rw [Site.choice?, source_below, Site.choice?]
  cases x.source? url <;> rfl

theorem findSome_below (url : Url) (i : Nat) (xs : List Site) :
    (xs.map (Site.below i)).findSome? (Site.choice? url) =
      (xs.findSome? (Site.choice? url)).map fun found => (found.1.below i, found.2) := by
  induction xs with
  | nil => rfl
  | cons x xs ih =>
    rw [List.map_cons, List.findSome?_cons, List.findSome?_cons, choice_below, ih]
    cases x.choice? url <;> rfl

def replaceChoice (ts : List (Tree NodeData)) (found : Site × String) : List (Tree NodeData) :=
  replaceAt (found.1.promoted found.2) found.1.index found.1.path ts

theorem promoteFirst_eq (url : Url) (around : List Element) (before : List Event)
    (ts front : List (Tree NodeData)) :
    ((sites around before front.length ts).findSome? (Site.choice? url)).map
        (replaceChoice (front ++ ts)) =
      (promoteFirst? url around before ts).map (front ++ ·) := by
  induction ts using Tree.forest_induction generalizing around before front with
  | nil => rw [sites, promoteFirst?, List.findSome?_nil, Option.map_none, Option.map_none]
  | cons data inside rest ihInside ihRest =>
    have passed := fun later => ihRest around later (front ++ [.node data inside])
    simp only [List.length_append, List.length_singleton, List.append_assoc,
      List.singleton_append] at passed
    cases data with
    | element e =>
      let x : Site := ⟨[], front.length, around, before, e, inside⟩
      have judged : (⟨[], 0, around, before, e, inside⟩ : Site).source? url = x.source? url := rfl
      have deeper := ihInside (e :: around) (before ++ [.start e]) []
      simp only [List.length_nil, List.nil_append, Option.map_id'] at deeper
      rw [sites, promoteFirst?, List.findSome?_cons, List.findSome?_append, findSome_below,
        judged]
      cases chosen : x.source? url with
      | some src =>
        have first : x.choice? url = some (x, src) := by rw [Site.choice?, chosen]; rfl
        rw [first]
        exact congrArg some (replaceAt_here _ _ _ _)
      | none =>
        have skipped : x.choice? url = none := by rw [Site.choice?, chosen]; rfl
        rw [skipped]
        rw [← deeper]
        cases (sites (e :: around) (before ++ [.start e]) 0 inside).findSome?
            (Site.choice? url) with
        | some found => exact congrArg some (replaceAt_below _ _ _ _ _ _ _)
        | none =>
          have later := passed (before ++ .start e :: (events inside ++ [.stop e]))
          simpa [Function.comp_def] using later
    | _ =>
      rw [sites_other fun _ => NodeData.noConfusion,
        promoteFirst_other fun _ => NodeData.noConfusion, passed, Option.map_map]
      simp [Function.comp_def]

theorem promoteMainImage_eq (url : Url) (data : NodeData) (ts : List (Tree NodeData)) :
    promoteMainImage url (.node data ts) =
      .node data ((promoteFirst? url [] [] ts).getD ts) := by
  have same := promoteFirst_eq url [] [] ts []
  rw [List.length_nil] at same
  simp only [List.nil_append, Option.map_id'] at same
  rw [promoteMainImage, mainImage?, ← same]
  cases (sites [] [] 0 ts).findSome? (Site.choice? url) <;> rfl

end PageFilters
