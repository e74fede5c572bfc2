import Treewalk.Proofs.Scanning.Seams
import Treewalk.Tree.Printer

namespace Treewalk

inductive Term
  | word (text : String)
  | list (parts : List Term)

namespace Term

mutual

def text : Term → String
  | word w => w
  | list [] => "()"
  | list (t :: ts) => parenthesize t.text (tail ts)

def tail : List Term → String
  | [] => ""
  | t :: ts => " " ++ t.text ++ tail ts

end

def isInner (c : Char) : Bool := c ≠ ' ' && c ≠ '(' && c ≠ ')'

def IsWord (w : String) : Prop := w ≠ "" ∧ w.toList.all isInner

mutual

def Clean : Term → Prop
  | word w => IsWord w
  | list parts => CleanAll parts

def CleanAll : List Term → Prop
  | [] => True
  | t :: ts => t.Clean ∧ CleanAll ts

end

open Cut (starts takeWhile_append dropWhile_append)

variable {w v : String} {t t' : Term} {ts ts' : List Term} {rest rest' : List Char}

theorem cleanAll_words {ws : List String} (h : ∀ w ∈ ws, IsWord w) : CleanAll (ws.map word) := by
  induction ws with
  | nil => trivial
  | cons w ws ih =>
    rw [List.forall_mem_cons] at h
    exact ⟨h.1, ih h.2⟩

theorem text_words (ws : List String) :
    (list (ws.map word)).text = "(" ++ " ".intercalate ws ++ ")" := by
  have htail (w : String) (ws : List String) :
      w ++ tail (ws.map word) = " ".intercalate (w :: ws) := by
    induction ws generalizing w with
    | nil => simp [tail]
    | cons v ws ih =>
      rw [List.map_cons, tail, text, String.intercalate_cons_cons, ← ih, String.append_assoc,
        String.append_assoc]
  cases ws with
  | nil => rfl
  | cons w ws => rw [List.map_cons, text, text, parenthesize, ← htail, ← String.append_assoc]

theorem exists_of_isWord (h : IsWord w) : ∃ c cs, w.toList = c :: cs ∧ isInner c := by
  obtain ⟨c, cs, hw⟩ := List.exists_cons_of_ne_nil (mt String.toList_eq_nil_iff.mp h.1)
  refine ⟨c, cs, hw, ?_⟩
  have hall := h.2
  rw [hw, List.all_cons, Bool.and_eq_true] at hall
  exact hall.1

theorem toList_list_nil : (list []).text.toList = ['(', ')'] := rfl

theorem toList_list_cons (t : Term) (ts : List Term) :
    (list (t :: ts)).text.toList = '(' :: (t.text.toList ++ ((tail ts).toList ++ [')'])) := by
  simp [text, parenthesize]

theorem toList_tail_cons (t : Term) (ts : List Term) :
    (tail (t :: ts)).toList = ' ' :: (t.text.toList ++ (tail ts).toList) := by
  simp [tail]

theorem exists_list (parts : List Term) : ∃ cs, (list parts).text.toList = '(' :: cs := by
  cases parts with
  | nil => exact ⟨_, toList_list_nil⟩
  | cons t ts => exact ⟨_, toList_list_cons t ts⟩

theorem text_ne_close (h : t.Clean) : t.text.toList ++ rest ≠ ')' :: rest' := by
  intro he
  cases t with
  | word w =>
    obtain ⟨c, cs, hw, hc⟩ := exists_of_isWord h
    rw [text, hw] at he
    obtain ⟨rfl, -⟩ := List.cons.inj he
    cases hc
  | list parts =>
    obtain ⟨cs, hlist⟩ := exists_list parts
    rw [hlist] at he
    cases (List.cons.inj he).1

theorem word_ne_list {parts : List Term} (h : IsWord w) :
    w.toList ++ rest ≠ (list parts).text.toList ++ rest' := by
  obtain ⟨c, cs, hw, hc⟩ := exists_of_isWord h
  obtain ⟨ds, hlist⟩ := exists_list parts
  rw [hw, hlist]
  intro he
  obtain ⟨rfl, -⟩ := List.cons.inj he
  cases hc

theorem word_append_inj (h : IsWord w) (h' : IsWord v) (hr : starts isInner rest = false)
    (hr' : starts isInner rest' = false) (he : w.toList ++ rest = v.toList ++ rest') :
    w = v ∧ rest = rest' := by
  have htake := congrArg (List.takeWhile isInner) he
  have hdrop := congrArg (List.dropWhile isInner) he
  rw [takeWhile_append h.2 hr, takeWhile_append h'.2 hr'] at htake
  rw [dropWhile_append h.2 hr, dropWhile_append h'.2 hr'] at hdrop
  exact ⟨String.toList_inj.mp htake, hdrop⟩

theorem starts_tail (ts : List Term) (rest : List Char) :
    starts isInner ((tail ts).toList ++ ')' :: rest) = false := by
  cases ts with
  | nil => rfl
  | cons t ts => rw [toList_tail_cons]; rfl

mutual

theorem text_append_inj : (t t' : Term) → t.Clean → t'.Clean → {rest rest' : List Char} →
    starts isInner rest = false → starts isInner rest' = false →
    t.text.toList ++ rest = t'.text.toList ++ rest' → t = t' ∧ rest = rest'
  | word w, word v, h, h', _, _, hr, hr', he => by
    obtain ⟨rfl, hrest⟩ := word_append_inj h h' hr hr' he
    exact ⟨rfl, hrest⟩
  | word _, list _, h, _, _, _, _, _, he => absurd he (word_ne_list h)
  | list _, word _, _, h', _, _, _, _, he => absurd he.symm (word_ne_list h')
  | list [], list [], _, _, _, _, _, _, he => ⟨rfl, (List.cons.inj (List.cons.inj he).2).2⟩
  | list [], list (t' :: ts'), _, h', _, _, _, _, he => by
    rw [toList_list_cons, List.cons_append, List.append_assoc] at he
    exact absurd (List.cons.inj he).2.symm (text_ne_close h'.1)
  | list (t :: ts), list [], h, _, _, _, _, _, he => by
    rw [toList_list_cons, List.cons_append, List.append_assoc] at he
    exact absurd (List.cons.inj he).2 (text_ne_close h.1)
  | list (t :: ts), list (t' :: ts'), h, h', rest, rest', _, _, he => by
    simp only [toList_list_cons, List.cons_append, List.append_assoc, List.nil_append] at he
    obtain ⟨rfl, htail⟩ := text_append_inj t t' h.1 h'.1 (starts_tail ts rest)
      (starts_tail ts' rest') (List.cons.inj he).2
    obtain ⟨rfl, hrest⟩ := tail_append_inj ts ts' h.2 h'.2 htail
    exact ⟨rfl, hrest⟩

theorem tail_append_inj : (ts ts' : List Term) → CleanAll ts → CleanAll ts' →
    {rest rest' : List Char} → (tail ts).toList ++ ')' :: rest = (tail ts').toList ++ ')' :: rest' →
    ts = ts' ∧ rest = rest'
  | [], [], _, _, _, _, he => ⟨rfl, (List.cons.inj he).2⟩
  | [], _ :: _, _, _, _, _, he => by
    rw [toList_tail_cons] at he
    cases (List.cons.inj he).1
  | _ :: _, [], _, _, _, _, he => by
    rw [toList_tail_cons] at he
    cases (List.cons.inj he).1
  | t :: ts, t' :: ts', h, h', rest, rest', he => by
    simp only [toList_tail_cons, List.cons_append, List.append_assoc] at he
    obtain ⟨rfl, htail⟩ := text_append_inj t t' h.1 h'.1 (starts_tail ts rest)
      (starts_tail ts' rest') (List.cons.inj he).2
    obtain ⟨rfl, hrest⟩ := tail_append_inj ts ts' h.2 h'.2 htail
    exact ⟨rfl, hrest⟩

end

theorem text_inj (h : t.Clean) (h' : t'.Clean) (he : t.text = t'.text) : t = t' := by
  have hend : starts isInner [] = false := rfl
  exact (text_append_inj t t' h h' hend hend (by rw [he])).1

theorem map_text_inj : (ts ts' : List Term) → CleanAll ts → CleanAll ts' →
    ts.map text = ts'.map text → ts = ts'
  | [], [], _, _, _ => rfl
  | t :: ts, t' :: ts', h, h', he => by
    obtain ⟨htext, hrest⟩ := List.cons.inj he
    rw [text_inj h.1 h'.1 htext, map_text_inj ts ts' h.2 h'.2 hrest]

end Term

end Treewalk
