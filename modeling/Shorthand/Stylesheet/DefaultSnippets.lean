import Shorthand.Table

/-!
# Default stylesheet snippets

A shorthand, and the property and value template that it stands for: alternatives with bars between
them, or text with tab stops.  An empty template leaves the value for the user to type.
-/

set_option autoImplicit false

namespace Shorthand.Stylesheet

/-- The stylesheet snippets that are there without any configuration. -/
def defaultSnippets : Table String := [
  ("pos", "position:relative|absolute|fixed|static|sticky"),
  ("t", "top:"),
  ("r", "right:"),
  ("b", "bottom:"),
  ("l", "left:"),
  ("z", "z-index:"),
  ("fl", "float:left|right|none"),
  ("cl", "clear:both|left|right|none"),
  ("d",
    "display:block|none|flex|inline-flex|inline|inline-block|grid|inline-grid|" ++
    "list-item|contents|table|inline-table|table-caption|table-column|" ++
    "table-column-group|table-header-group|table-footer-group|table-row|" ++
    "table-row-group|table-cell"),
  ("v", "visibility:hidden|visible|collapse"),
  ("ov", "overflow:hidden|visible|scroll|auto"),
  ("ovx", "overflow-x:hidden|visible|scroll|auto"),
  ("ovy", "overflow-y:hidden|visible|scroll|auto"),
  ("zoo", "zoom:1"),
  ("cur", "cursor:pointer|auto|default|crosshair|hand|help|move|text"),
  ("op", "opacity:"),
  ("bxz", "box-sizing:border-box|content-box"),
  ("bxsh",
    "box-shadow:$\x7b1:inset \x7d$\x7b2:hoff\x7d $\x7b3:voff\x7d $\x7b4:blur\x7d $\x7b5:#000\x7d"),
  ("m", "margin:"),
  ("mt", "margin-top:"),
  ("mr", "margin-right:"),
  ("mb", "margin-bottom:"),
  ("ml", "margin-left:"),
  ("p", "padding:"),
  ("pt", "padding-top:"),
  ("pr", "padding-right:"),
  ("pb", "padding-bottom:"),
  ("pl", "padding-left:"),
  ("w", "width:"),
  ("h", "height:"),
  ("maw", "max-width:"),
  ("mah", "max-height:"),
  ("miw", "min-width:"),
  ("mih", "min-height:"),
  ("ac", "align-content:center|flex-start|flex-end|space-between|space-around|stretch"),
  ("ai", "align-items:center|flex-start|flex-end|baseline|stretch"),
  ("as", "align-self:auto|center|flex-start|flex-end|baseline|stretch"),
  ("jc", "justify-content:center|flex-start|flex-end|space-between|space-around|space-evenly"),
  ("ji", "justify-items:center|start|end|stretch"),
  ("fx", "flex:"),
  ("fxd", "flex-direction:row|row-reverse|column|column-reverse"),
  ("fxw", "flex-wrap:nowrap|wrap|wrap-reverse"),
  ("fxg", "flex-grow:"),
  ("fxsh", "flex-shrink:"),
  ("fxb", "flex-basis:fill|max-content|min-content|fit-content|content"),
  ("ord", "order:"),
  ("gap", "gap:"),
  ("gtc", "grid-template-columns:repeat($\x7b1:2\x7d, $\x7b2:1fr\x7d)"),
  ("gtr", "grid-template-rows:repeat($\x7b1:2\x7d, $\x7b2:1fr\x7d)"),
  ("gc", "grid-column:$\x7b1:1\x7d / $\x7b2:-1\x7d"),
  ("gr", "grid-row:$\x7b1:1\x7d / $\x7b2:-1\x7d"),
  ("f", "font:"),
  ("fw", "font-weight:normal|bold|bolder|lighter"),
  ("fs", "font-style:italic|normal|oblique"),
  ("fz", "font-size:"),
  ("ff", "font-family:serif|sans-serif|monospace|cursive|fantasy"),
  ("fv", "font-variant:normal|small-caps"),
  ("lh", "line-height:"),
  ("ta", "text-align:left|center|right|justify"),
  ("td", "text-decoration:none|underline|overline|line-through"),
  ("tt", "text-transform:uppercase|lowercase|capitalize|none"),
  ("ti", "text-indent:"),
  ("tov", "text-overflow:ellipsis|clip"),
  ("tsh", "text-shadow:$\x7b1:hoff\x7d $\x7b2:voff\x7d $\x7b3:blur\x7d $\x7b4:#000\x7d"),
  ("va", "vertical-align:top|middle|bottom|baseline|sub|super|text-top|text-bottom"),
  ("lts", "letter-spacing:"),
  ("wos", "word-spacing:"),
  ("whs", "white-space:nowrap|normal|pre|pre-wrap|pre-line"),
  ("wob", "word-break:break-all|normal|keep-all"),
  ("c", "color:$\x7b1:#000\x7d"),
  ("bg", "background:$\x7b1:#000\x7d"),
  ("bgc", "background-color:$\x7b1:#fff\x7d"),
  ("bgi", "background-image:url($\x7b1\x7d)"),
  ("bgr", "background-repeat:no-repeat|repeat-x|repeat-y|space|round"),
  ("bgp", "background-position:$\x7b1:0\x7d $\x7b2:0\x7d"),
  ("bgsz", "background-size:cover|contain"),
  ("bga", "background-attachment:fixed|scroll"),
  ("bd", "border:$\x7b1:1px\x7d $\x7b2:solid\x7d $\x7b3:#000\x7d"),
  ("bdt", "border-top:$\x7b1:1px\x7d $\x7b2:solid\x7d $\x7b3:#000\x7d"),
  ("bdr", "border-right:$\x7b1:1px\x7d $\x7b2:solid\x7d $\x7b3:#000\x7d"),
  ("bdb", "border-bottom:$\x7b1:1px\x7d $\x7b2:solid\x7d $\x7b3:#000\x7d"),
  ("bdl", "border-left:$\x7b1:1px\x7d $\x7b2:solid\x7d $\x7b3:#000\x7d"),
  ("bdc", "border-color:$\x7b1:#000\x7d"),
  ("bdw", "border-width:"),
  ("bds", "border-style:solid|dashed|dotted|double|groove|ridge|inset|outset|hidden|none"),
  ("bdrs", "border-radius:"),
  ("bdcl", "border-collapse:collapse|separate"),
  ("ol", "outline:"),
  ("olc", "outline-color:$\x7b1:#000\x7d"),
  ("ols", "outline-style:solid|dashed|dotted|none"),
  ("lis", "list-style:"),
  ("lisp", "list-style-position:inside|outside"),
  ("list", "list-style-type:disc|circle|square|decimal|none"),
  ("tbl", "table-layout:auto|fixed"),
  ("trf", "transform:"),
  ("trs", "transition:$\x7b1:prop\x7d $\x7b2:time\x7d"),
  ("trsde", "transition-delay:$\x7b1:time\x7d"),
  ("trsdu", "transition-duration:$\x7b1:time\x7d"),
  ("trsp", "transition-property:$\x7b1:prop\x7d"),
  ("anim", "animation:"),
  ("animn", "animation-name:"),
  ("animdur", "animation-duration:$\x7b1:0\x7d$\x7b2:s\x7d"),
  ("us", "user-select:none|auto|text|all"),
  ("pe", "pointer-events:none|auto"),
  ("rsz", "resize:none|both|horizontal|vertical"),
  ("obf", "object-fit:fill|contain|cover|none|scale-down"),
  ("ct", "content:"),
  ("q", "quotes:"),
  ("ec", "empty-cells:show|hide")]

end Shorthand.Stylesheet
