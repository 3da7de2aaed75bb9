/-!
# Element names

The names of HTML and SVG elements. A word of a key that is none of them names a class.
-/

namespace NestedStyles.Selector

/-- The names of the HTML elements. -/
def htmlTags : List String := [
  "a", "abbr", "address", "applet", "area", "article", "aside", "audio", "b", "base", "basefont",
  "bdi", "bdo", "big", "blockquote", "body", "br", "button", "canvas", "caption", "center",
  "cite", "code", "col", "colgroup", "command", "data", "datalist", "dd", "del", "details",
  "dfn", "dialog", "dir", "div", "dl", "dt", "em", "embed", "fieldset", "figcaption", "figure",
  "font", "footer", "form", "frame", "frameset", "h1", "h2", "h3", "h4", "h5", "h6", "head",
  "header", "hgroup", "hr", "html", "i", "iframe", "img", "input", "ins", "isindex", "kbd",
  "keygen", "label", "legend", "li", "link", "listing", "main", "map", "mark", "marquee", "menu",
  "menuitem", "meta", "meter", "multicol", "nav", "nextid", "nobr", "noembed", "noframes",
  "noscript", "object", "ol", "optgroup", "option", "output", "p", "param", "picture",
  "plaintext", "pre", "progress", "q", "rb", "rp", "rt", "rtc", "ruby", "s", "samp", "script",
  "search", "section", "select", "slot", "small", "source", "span", "strike", "strong", "style",
  "sub", "summary", "sup", "table", "tbody", "td", "template", "textarea", "tfoot", "th",
  "thead", "time", "title", "tr", "track", "tt", "u", "ul", "var", "video", "wbr", "xmp"]

/-- The names of the SVG elements. -/
def svgTags : List String := [
  "svg", "animate", "animateMotion", "animateTransform", "circle", "clipPath", "defs", "desc",
  "ellipse", "feBlend", "feColorMatrix", "feComposite", "feGaussianBlur", "feMerge", "feOffset",
  "filter", "foreignObject", "g", "image", "line", "linearGradient", "marker", "mask",
  "metadata", "mpath", "path", "pattern", "polygon", "polyline", "radialGradient", "rect",
  "stop", "switch", "symbol", "text", "textPath", "tspan", "use", "view"]

/-- An HTML or SVG element has this name. -/
def isTag (name : String) : Bool := htmlTags.contains name || svgTags.contains name

/-- A character that ends the name at the start of a selector. -/
def endsName (c : Char) : Bool := ['.', '#', '[', ':', ' ', '>', '+', '~'].contains c

/-- The selector begins with the name of an element, alone or before more of the selector. -/
def startsWithTag (selector : List Char) : Bool :=
  isTag (String.ofList (selector.takeWhile fun c => !endsName c))

end NestedStyles.Selector
