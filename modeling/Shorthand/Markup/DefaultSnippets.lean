import Shorthand.Table

/-!
# Default markup snippets

The name of an element and the abbreviation that it stands for.  The texts use the whole markup
language; what a user types on the element is merged into the tree of the text.
-/

set_option autoImplicit false

namespace Shorthand.Markup

/-- The markup snippets that are there without any configuration. -/
def defaultSnippets : Table String := [
  ("a", "a[href]"),
  ("a:blank", "a[href='http://$\x7b0\x7d' target=_blank rel='noopener noreferrer']"),
  ("a:link", "a[href='http://$\x7b0\x7d']"),
  ("a:mail", "a[href='mailto:$\x7b0\x7d']"),
  ("a:tel", "a[href='tel:+$\x7b0\x7d']"),
  ("abbr", "abbr[title]"),
  ("acr", "acronym[title]"),
  ("base", "base[href]/"),
  ("br", "br/"),
  ("hr", "hr/"),
  ("bdo", "bdo[dir]"),
  ("bdo:r", "bdo[dir=rtl]"),
  ("bdo:l", "bdo[dir=ltr]"),
  ("col", "col/"),
  ("link", "link[rel=stylesheet href]/"),
  ("link:css", "link[rel=stylesheet href='$\x7b1:style\x7d.css']/"),
  ("link:favicon", "link[rel='shortcut icon' type=image/x-icon href='$\x7b1:favicon.ico\x7d']/"),
  ("link:touch", "link[rel=apple-touch-icon href='$\x7b1:favicon.png\x7d']/"),
  ("meta", "meta/"),
  ("meta:utf", "meta[http-equiv=Content-Type content='text/html;charset=UTF-8']/"),
  ("meta:vp", "meta[name=viewport content='width=device-width, initial-scale=1.0']/"),
  ("meta:edge", "meta[http-equiv=X-UA-Compatible content='$\x7b1:ie=edge\x7d']/"),
  ("meta:redirect", "meta[http-equiv=refresh content='0; url=$\x7b1:http://example.com\x7d']/"),
  ("script:src", "script[src]"),
  ("img", "img[src alt]/"),
  ("img:srcset", "img[srcset src alt]/"),
  ("ifr", "iframe[src frameborder=0]"),
  ("embed", "embed[src type]/"),
  ("object", "object[data type]"),
  ("param", "param[name value]/"),
  ("map", "map[name]"),
  ("area", "area[shape coords href alt]/"),
  ("form", "form[action]"),
  ("form:get", "form[action method=get]"),
  ("form:post", "form[action method=post]"),
  ("label", "label[for]"),
  ("input", "input[type=text]/"),
  ("inp", "input[name=$\x7b1\x7d id=$\x7b1\x7d]"),
  ("input:hidden", "input[type=hidden name]"),
  ("input:h", "input:hidden"),
  ("input:text", "inp"),
  ("input:t", "inp"),
  ("input:search", "inp[type=search]"),
  ("input:email", "inp[type=email]"),
  ("input:url", "inp[type=url]"),
  ("input:password", "inp[type=password]"),
  ("input:p", "input:password"),
  ("input:number", "inp[type=number]"),
  ("input:date", "inp[type=date]"),
  ("input:checkbox", "inp[type=checkbox]"),
  ("input:c", "input:checkbox"),
  ("input:radio", "inp[type=radio]"),
  ("input:r", "input:radio"),
  ("input:file", "inp[type=file]"),
  ("input:f", "input:file"),
  ("input:submit", "input[type=submit value]"),
  ("input:s", "input:submit"),
  ("input:button", "input[type=button value]"),
  ("input:b", "input:button"),
  ("input:reset", "input[type=reset value]"),
  ("source", "source/"),
  ("source:src", "source[src type]/"),
  ("track", "track[src kind]/"),
  ("wbr", "wbr/"),
  ("select", "select[name=$\x7b1\x7d id=$\x7b1\x7d]"),
  ("option", "option[value]"),
  ("textarea", "textarea[name=$\x7b1\x7d id=$\x7b1\x7d cols=$\x7b2:30\x7d rows=$\x7b3:10\x7d]"),
  ("video", "video[src]"),
  ("audio", "audio[src]"),
  ("html", "html[lang=en]"),
  ("btn", "button"),
  ("btn:s", "button[type=submit]"),
  ("btn:r", "button[type=reset]"),
  ("btn:b", "button[type=button]"),
  ("bq", "blockquote"),
  ("fst", "fieldset"),
  ("fig", "figure"),
  ("figc", "figcaption"),
  ("pic", "picture"),
  ("ifr:n", "iframe"),
  ("leg", "legend"),
  ("sect", "section"),
  ("art", "article"),
  ("hdr", "header"),
  ("ftr", "footer"),
  ("adr", "address"),
  ("dlg", "dialog"),
  ("str", "strong"),
  ("prog", "progress"),
  ("mn", "main"),
  ("tem", "template"),
  ("fset", "fieldset"),
  ("datal", "datalist"),
  ("kg", "keygen"),
  ("out", "output"),
  ("det", "details"),
  ("sum", "summary"),
  ("cmd", "command"),
  ("opt", "option"),
  ("optg", "optgroup"),
  ("tarea", "textarea"),
  ("cap", "caption"),
  ("colg", "colgroup"),
  ("emb", "embed"),
  ("obj", "object"),
  ("src", "source"),
  ("!!!", "\x7b<!DOCTYPE html>\x7d"),
  ("doc", "html[lang=en]>(head>meta[charset=UTF-8]+meta:vp+title\x7b$\x7b1:Document\x7d\x7d)+body"),
  ("!", "!!!+doc")]

end Shorthand.Markup
