import DeskCalc.Panel.Button

/-!
# DeskCalc.Panel.Drawing — the texts that a frame draws

* `texts` lists the labels and the buttons in drawing order, with the history unfolded.  The entry itself is edited in
  place and is not among them.
* The error has a label of its own only while there is one; an empty history shows a placeholder.
-/

namespace DeskCalc.Panel

/-- The title, the entry's caption, the buttons, and the two free places at the end of the pad. -/
def keyboardTexts : List String :=
  ["Calculatrice postfixe", "Entrée :"] ++ Button.all.map Button.label ++ ["", ""]

/-- The error, while there is one. -/
def errorTexts (p : Panel) : List String := if p.error = "" then [] else [p.error]

/-- The result and the steps with their captions. -/
def resultTexts (p : Panel) : List String :=
  ["Résultat :", p.result, "Démarche", "Jetons :", p.steps.tokens, "Postfixe :", p.steps.rpn, "Erreur :",
   p.steps.fault]

/-- The lines of the history under their caption. -/
def historyTexts (p : Panel) : List String :=
  "Historique" ::
    if p.history = [] then ["(vide)"] else p.history.flatMap fun line => [line.expression, "= " ++ line.output]

/-- The texts that a frame draws. -/
def texts (p : Panel) : List String := keyboardTexts ++ p.errorTexts ++ p.resultTexts ++ p.historyTexts

end DeskCalc.Panel
