import Mathlib
import TableClient.Query.Pages

/-!
# Results after a page that did not come

The key to go on from is used up by asking for the page behind it. When the page does not come, the
failure is reported once; from then on the results look as if they had come to their end.

Results:
* `hasNext_request?`: when a page is asked for, and with what.
* `hasNext_answer`: what is made of a page, and of a failure.
* `resumes_iff_received`: the same page is asked for again exactly if the failure did not occur.
-/

namespace TableClient.Pages

open Protocol (Page)

/-! ## Asking for a page -/

/-- The results without a key to go on from. -/
def withoutKey (pages : Pages) : Pages := { pages with lastKey := none }

/-- A page is asked for when no item is at hand and there may be more, from the key on and with
    what is left of the limit. -/
theorem hasNext_request? (pages : Pages) (request : Request) :
    pages.hasNext.request? = some request ↔
      pages.items = [] ∧ pages.remaining ≠ some 0 ∧ ∃ key, pages.lastKey = some key ∧
        request = pages.request.toRequest (some key) (pages.remaining.map UInt64.ofNat) := by
  unfold hasNext
  split_ifs with hitems hend
  · have hne : pages.items ≠ [] := by simpa using hitems
    simp [Exchange.request?, hne]
  · have hnone : pages.lastKey = none ∨ pages.remaining = some 0 := by simpa using hend
    constructor
    · intro h
      cases h
    · rintro ⟨-, hremaining, key, hkey, -⟩
      rcases hnone with hnone | hzero
      · cases hkey.symm.trans hnone
      · exact absurd hzero hremaining
  · have hnil : pages.items = [] := by simpa using hitems
    have hmore : pages.lastKey ≠ none ∧ pages.remaining ≠ some 0 := by simpa using hend
    obtain ⟨key, hkey⟩ := Option.ne_none_iff_exists'.mp hmore.1
    rw [(Exchange.map_answer _ _ (.ok .null)).2, hkey]
    constructor
    · intro h
      exact ⟨hnil, hmore.2, key, rfl, (Option.some.inj h).symm⟩
    · rintro ⟨-, -, key', hkey', rfl⟩
      obtain rfl := Option.some.inj hkey'
      rfl

theorem fetch_answer (pages : Pages) (startKey : Option AttributeMap) (reply : Reply) :
    (pages.fetch startKey).answer reply =
      match reply.as Page with
      | .ok page => (.ok (), pages.receive startKey page)
      | .error cause => (.error (.transport pages.request.activity cause), pages) := by
  simp only [fetch, Exchange.call, Exchange.answer]
  cases reply.as Page <;> rfl

/-- Whatever comes of a page that is asked for, the key it was asked for from is used up. -/
theorem hasNext_answer {pages : Pages} {request : Request}
    (hask : pages.hasNext.request? = some request) (reply : Reply) :
    pages.hasNext.answer reply =
      match reply.as Page with
      | .ok page =>
        let after := pages.withoutKey.receive pages.lastKey page
        (.ok !after.items.isEmpty, after)
      | .error cause => (.error (.transport pages.request.activity cause), pages.withoutKey) := by
  obtain ⟨hitems, hremaining, key, hkey, -⟩ := (pages.hasNext_request? request).mp hask
  unfold hasNext
  rw [if_neg (by simp [hitems]), if_neg (by simp [hkey, hremaining]),
    (Exchange.map_answer _ _ reply).1, fetch_answer]
  cases reply.as Page <;> rfl

/-! ## After a failure -/

/-- Without an item at hand or a key to go on from, the results are at their end. -/
theorem hasNext_withoutKey {pages : Pages} (hitems : pages.items = []) :
    pages.withoutKey.hasNext = .done (.ok false, pages.withoutKey) := by
  simp [hasNext, withoutKey, hitems]

/-- Once a page has been asked for, the same page is asked for again after a failure exactly if
    there was no failure. After one, the results look as if they had come to their end. -/
theorem resumes_iff_received (pages : Pages) {request : Request}
    (hask : pages.hasNext.request? = some request) (reply : Reply) :
    let (outcome, after) := pages.hasNext.answer reply
    ((∀ error, outcome = .error error → after.hasNext.request? = some request) ↔
      ∃ page, reply.as Page = .ok page) ∧
    ∀ cause, reply.as Page = .error cause →
      outcome = .error (.transport pages.request.activity cause) ∧
      after.hasNext = .done (.ok false, after) ∧
      after.next = .done (.error (.query .noMoreItems), after) ∧
      pages.next.answer reply = (.error (.transport pages.request.activity cause), after) ∧
      ∀ type, (pages.nextAs type).answer reply =
        (.error (.transport pages.request.activity cause), after) := by
  have hitems := ((pages.hasNext_request? request).mp hask).1
  have hanswer := hasNext_answer hask reply
  cases hreply : reply.as Page with
  | ok page =>
    rw [hreply] at hanswer
    rw [hanswer]
    refine ⟨⟨fun _ => ⟨page, rfl⟩, fun _ error herror => ?_⟩, fun cause hcause => ?_⟩
    · cases herror
    · cases hcause
  | error cause =>
    rw [hreply] at hanswer
    have hend := hasNext_withoutKey hitems
    have hnext : pages.next.answer reply =
        (.error (.transport pages.request.activity cause), pages.withoutKey) := by
      rw [next, (Exchange.map_answer _ _ reply).1, hanswer]
    rw [hanswer]
    refine ⟨⟨fun hresumes => ?_, ?_⟩, ?_⟩
    · have hagain := hresumes _ rfl
      rw [hend] at hagain
      cases hagain
    · rintro ⟨page, hpage⟩
      cases hpage
    · rintro cause' hcause
      obtain rfl := Except.error.inj hcause
      refine ⟨rfl, hend, ?_, hnext, fun type => ?_⟩
      · rw [next, hend]
        rfl
      · rw [nextAs, (Exchange.map_answer _ _ reply).1, hnext]
        rfl

/-- The results of a scan whose first page is empty but not the last. -/
def emptyFirstPage : Pages :=
  receive { request := .scan { table := "T" }, limit := none } none
    ⟨[], some [("id", .string "a")]⟩

/-- The request for the second page. -/
def secondPage : Request := .scan { table := "T", startKey := some [("id", .string "a")] }

/-- A second page that comes goes through. -/
theorem emptyFirstPage_received :
    emptyFirstPage.hasNext.request? = some secondPage ∧
      let (outcome, after) := emptyFirstPage.hasNext.answer (.ok (.object []))
      ∀ error, outcome = .error error → after.hasNext.request? = some secondPage := by
  refine ⟨rfl, ?_⟩
  exact (emptyFirstPage.resumes_iff_received rfl (.ok (.object []))).1.mpr ⟨{}, rfl⟩

/-- After a failure of the request for the second page, the scan is at its end. -/
theorem emptyFirstPage_failed :
    let (outcome, after) := emptyFirstPage.hasNext.answer (.error .disconnected)
    outcome = .error (.transport .scan .disconnected) ∧
      after.hasNext.request? ≠ some secondPage ∧
      after.hasNext.answer (.error .disconnected) = (.ok false, after) := by
  decide

end TableClient.Pages
