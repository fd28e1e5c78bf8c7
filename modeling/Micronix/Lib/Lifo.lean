import Mathlib.Data.List.Basic

/-!
# A free list as a plain stack

The abstract allocator: a list of free items, `alloc` pops the head, `free` pushes.  The only
fact a client needs is `handed_out_once`: as long as nobody frees what is already free, an item
that was handed out is not handed out again before it has been freed.
-/

namespace Lifo

variable {α : Type*}

/-- A request to the allocator. -/
inductive Call (α : Type*)
  | alloc
  | free (a : α)

/-- What the client observes of a request. -/
inductive Event (α : Type*)
  | got (a : α)
  | full
  | freed (a : α)
  deriving DecidableEq

/-- Serve one request from the list of free items. -/
def serve (L : List α) : Call α → Event α × List α
  | .alloc =>
      match L with
      | [] => (.full, [])
      | a :: L => (.got a, L)
  | .free a => (.freed a, a :: L)

/-- Serve a sequence of requests, collecting what the client sees. -/
def serveAll : List α → List (Call α) → List (Event α) × List α
  | L, [] => ([], L)
  | L, c :: cs =>
      let r := serve L c
      let rest := serveAll r.2 cs
      (r.1 :: rest.1, rest.2)

/-- The client's side of the bargain: it frees only items that satisfy `ok` and that are not
free already. -/
def Disciplined (ok : α → Prop) : List α → List (Call α) → Prop
  | _, [] => True
  | L, .alloc :: cs => Disciplined ok (serve L .alloc).2 cs
  | L, .free a :: cs => ok a ∧ a ∉ L ∧ Disciplined ok (a :: L) cs

/-- A well-kept free list: no repetition, and only acceptable items. -/
def Kept (ok : α → Prop) (L : List α) : Prop :=
  L.Nodup ∧ ∀ a ∈ L, ok a

variable {ok : α → Prop}

lemma Kept.alloc {L : List α} (h : Kept ok L) : Kept ok (serve L .alloc).2 := by
  cases L with
  | nil => exact h
  | cons a L =>
      exact ⟨(List.nodup_cons.mp h.1).2, fun b hb => h.2 b (List.mem_cons_of_mem a hb)⟩

lemma Kept.free {L : List α} {a : α} (h : Kept ok L) (ha : ok a) (hL : a ∉ L) :
    Kept ok (a :: L) := by
  refine ⟨List.nodup_cons.mpr ⟨hL, h.1⟩, ?_⟩
  intro b hb
  rcases List.mem_cons.mp hb with rfl | hb
  · exact ha
  · exact h.2 b hb

/-- An item that is out is not handed out again as long as it is not freed. -/
lemma not_got_of_not_freed {a : α} :
    ∀ {cs : List (Call α)} {L : List α} {pre post : List (Event α)},
      Kept ok L → Disciplined ok L cs → a ∉ L → (serveAll L cs).1 = pre ++ .got a :: post →
        .freed a ∈ pre
  | [], L, pre, post, _, _, _, h => by simp [serveAll] at h
  | c :: cs, L, pre, post, hk, hd, ha, h => by
      cases c with
      | alloc =>
          have hk' := hk.alloc
          cases L with
          | nil =>
              have hd' : Disciplined ok [] cs := hd
              cases pre with
              | nil => simp [serveAll, serve] at h
              | cons e pre =>
                  simp only [serveAll, serve, List.cons_append, List.cons.injEq] at h
                  exact List.mem_cons_of_mem e (not_got_of_not_freed hk' hd' ha h.2)
          | cons b L =>
              have hb : b ≠ a := fun e => ha (e ▸ List.mem_cons_self)
              have haL : a ∉ L := fun e => ha (List.mem_cons_of_mem b e)
              have hd' : Disciplined ok L cs := hd
              cases pre with
              | nil => simp [serveAll, serve, hb] at h
              | cons e pre =>
                  simp only [serveAll, serve, List.cons_append, List.cons.injEq] at h
                  exact List.mem_cons_of_mem e (not_got_of_not_freed hk' hd' haL h.2)
      | free b =>
          obtain ⟨hok, hbL, hrest⟩ := hd
          have hk' := hk.free hok hbL
          cases pre with
          | nil => simp [serveAll, serve] at h
          | cons e pre =>
              simp only [serveAll, serve, List.cons_append, List.cons.injEq] at h
              by_cases hab : a = b
              · subst hab
                rw [← h.1]
                exact List.mem_cons_self
              · have haL : a ∉ b :: L := by simp [hab, ha]
                exact List.mem_cons_of_mem e (not_got_of_not_freed hk' hrest haL h.2)

/-- **Nothing is handed out twice.**  Between two hand-outs of the same item there is a free of
it. -/
theorem handed_out_once {a : α} :
    ∀ {cs : List (Call α)} {L : List α} {pre mid post : List (Event α)},
      Kept ok L → Disciplined ok L cs →
        (serveAll L cs).1 = pre ++ .got a :: (mid ++ .got a :: post) → .freed a ∈ mid
  | [], L, pre, mid, post, _, _, h => by simp [serveAll] at h
  | c :: cs, L, pre, mid, post, hk, hd, h => by
      cases pre with
      | cons e pre =>
          simp only [serveAll, List.cons_append, List.cons.injEq] at h
          cases c with
          | alloc => exact handed_out_once hk.alloc hd h.2
          | free b => exact handed_out_once (hk.free hd.1 hd.2.1) hd.2.2 h.2
      | nil =>
          -- the first of the two hand-outs is this very request: `a` was the head and leaves
          cases c with
          | free b => simp [serveAll, serve] at h
          | alloc =>
              cases L with
              | nil => simp [serveAll, serve] at h
              | cons b L =>
                  simp only [serveAll, serve, List.nil_append, List.cons.injEq,
                    Event.got.injEq] at h
                  obtain ⟨rfl, h⟩ := h
                  exact not_got_of_not_freed hk.alloc hd (List.nodup_cons.mp hk.1).1 h

end Lifo
