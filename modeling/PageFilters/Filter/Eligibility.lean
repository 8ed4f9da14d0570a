import PageFilters.Markup.Element
import PageFilters.Url.Library

/-!
Whether an element is worth a filter's attention, judged by its attributes.
-/

namespace PageFilters

def readInt32? (text : String) : Option Int :=
  let digits? (cs : List Char) : Option Int :=
    if cs.isEmpty then none else (readDigits 10 cs).map Int.ofNat
  let fits (n : Int) : Option Int :=
    if -0x80000000 ≤ n ∧ n < 0x80000000 then some n else none
  match text.toList with
  | '+' :: cs => (digits? cs).bind fits
  | '-' :: cs => (digits? cs).bind fun n => fits (-n)
  | cs => (digits? cs).bind fits

namespace Element

/-- Whether the style attribute hides the element. Only the spellings without spaces count. -/
def isHidden (e : Element) : Bool :=
  match e.value? "style" with
  | none => false
  | some style =>
    containsIgnoreCase style "display:none" || containsIgnoreCase style "visibility:hidden"

def isTiny (e : Element) : Bool :=
  match (e.value? "width").bind readInt32?, (e.value? "height").bind readInt32? with
  | some width, some height => width ≤ 1 && height ≤ 1
  | _, _ => false

/-- The source of an image that may be fetched first: it names something outside the page and
resolves, and the image is neither hidden nor a tracking pixel. -/
def eligibleSrc? [UrlLibrary] (base : Option Url) (e : Element) : Option String :=
  match e.value? "src" with
  | none => none
  | some src =>
    if src.isEmpty || isDataUrl src || e.isHidden || e.isTiny then none
    else if (Url.resolve? base src).isSome then some src
    else none

theorem eligibleSrc_spec [UrlLibrary] {e : Element} {base : Option Url} {src : String}
    (eligible : e.eligibleSrc? base = some src) : e.value? "src" = some src ∧
      isDataUrl src = false ∧ (Url.resolve? base src).isSome = true := by
  unfold eligibleSrc? at eligible
  split at eligible
  · cases eligible
  · next value found =>
    split at eligible
    · cases eligible
    · next checks =>
      split at eligible
      · next resolves =>
        cases eligible
        simp only [Bool.or_eq_true, not_or, Bool.not_eq_true] at checks
        exact ⟨found, checks.1.1.2, resolves⟩
      · cases eligible

end Element

def polyfillPatterns : List String :=
  ["wp-polyfill", "polyfill.io", "/polyfill.min.js", "/polyfills.min.js"]

def isPolyfillUrl (src : String) : Bool :=
  polyfillPatterns.any fun pattern => containsIgnoreCase src pattern

def isHtmlType (contentType : Option String) : Bool :=
  match contentType with
  | none => false
  | some value =>
    containsIgnoreCase value "text/html" || containsIgnoreCase value "application/xhtml"

end PageFilters
