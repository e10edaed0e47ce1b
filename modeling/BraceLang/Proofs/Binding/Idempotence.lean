import BraceLang.Proofs.Binding.Concord.Constructs
import BraceLang.Proofs.Binding.Resolution

/-! Binding a program that was bound before gives the same program, the same diagnostics and the same counts:
    no link that a node brings along is ever read, and every link that matters is written anew. -/

namespace BraceLang

namespace Binder
open Lexical

/-- States are like each other if they are the same but for the log and the counts. -/
def Likeness.exact : Likeness Diagnostic where
  Frames := Eq
  view := id
  empty := rfl
  insert _ h _ _ := h ▸ rfl
  decl _ h := h ▸ rfl
  redefinition _ h hx hy := by
    subst h
    cases hx.symm.trans hy
    rfl
  undefined _ _ h := by
    rw [List.forall₂_eq_eq_eq] at h
    rw [h]

variable {p q : Program} {ns ns' : List Node}

theorem concord_items {γ : Type} {l : Likeness γ} (proper : ∀ n ∈ ns, n.ProperMembers)
    (h : RelinksAll .plain ns ns') : Concord l (bindItems ns) (bindItems ns') := by
  obtain ⟨pairs, rfl, rfl, relinks⟩ := h
  refine .visitScope fun p hp => ?_
  exact mirrors (relinks p hp) (proper p.1 (List.mem_map_of_mem hp)) Standing.noConfusion

/-- Two programs that differ only in links that binding writes give the same when they are bound, and add the
    same to their logs. -/
theorem bind_of_relinks (proper : ∀ n ∈ p.items, n.ProperMembers) (hsource : q.source = p.source)
    (hcount : q.nodeCount = p.nodeCount) (h : RelinksAll .plain p.items q.items) (log again : Log) :
    ∃ new, (bind p log).2.1 = log.append new ∧
      bind q again = ((bind p log).1, again.append new, (bind p log).2.2) := by
  obtain ⟨c, hc⟩ := (concord_items proper h (l := .exact)).inScope (start log)
  have first := (hc (start log) ⟨.nil, rfl⟩).1
  have second := (hc (start again) ⟨.nil, rfl⟩).2
  obtain ⟨new, hlog, hnew⟩ := first.spends.log
  obtain ⟨new', hagain, hnew'⟩ := second.spends.log
  have same : new' = new := by
    rw [← hnew] at hnew'
    simpa [Likeness.exact] using hnew'
  refine ⟨new, hlog, ?_⟩
  rw [bind_eq, bind_eq, second.result, second.spends.summary, first.spends.summary, hagain, same, hsource, hcount]
  rfl

/-- Binding a parsed program again changes nothing, counts the same, and reports the same in the same order.
    Nor does any other link that a node has beforehand make a difference, where binding writes one. -/
theorem bind_idempotent (source : Source) (log again : Log) :
    ∃ new : List Diagnostic,
      (bind (parse source).1 log).2.1 = log.append new ∧
      bind (bind (parse source).1 log).1 again =
        ((bind (parse source).1 log).1, again.append new, (bind (parse source).1 log).2.2) ∧
      ∀ q : Program, q.source = (parse source).1.source → q.nodeCount = (parse source).1.nodeCount →
        RelinksAll .plain (parse source).1.items q.items → ∀ log, bind q log = bind (parse source).1 log := by
  have proper := parse_properMembers source
  obtain ⟨new, hlog, hagain⟩ := bind_of_relinks (q := (bind (parse source).1 log).1) proper rfl rfl
    (bind_relinks (parse source).1 log) log again
  refine ⟨new, hlog, hagain, fun q hsource hcount h log => ?_⟩
  obtain ⟨new, hlog, hq⟩ := bind_of_relinks proper hsource hcount h log log
  rw [hq, ← hlog]

end Binder

end BraceLang
